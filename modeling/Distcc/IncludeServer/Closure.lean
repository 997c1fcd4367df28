import Distcc.IncludeServer.Find
import Mathlib.Data.Finset.Prod
import Mathlib.Data.Finset.Dedup

/-!
# The include closure

`RunAlgorithm` returns the real paths of the files that it finds below the node of the
translation unit, but for those in system directories. With plain includes they are
exactly the ones that are reached without any cache, after any history of calls
(`runAlgorithm_closure`).

In a graph in which no node is under way, what is below a node is what the requests that
are due for it ask for. The names in the nodes need not be those by which the files are
reached: they are others of the same file in the same directory, and so each of the two
sides follows the other (`reaches_iff`).
-/

namespace Distcc.IncludeServer

open CString List Prog Relation

/-! ### Reading the graph -/

section Reading

variable {env : Sources} {cfg : Config} {g : Graph} {n m : ℕ} {p q : Pair} {request : Request}

/-- The node is that of a file by this name, with all its children. -/
def FileNode (env : Sources) (cfg : Config) (g : Graph) (n : ℕ) (q : Pair) : Prop :=
  ∃ node, g.nodes[n]? = some node ∧ node.file = some (q, realOf env.fs cfg.currdir q) ∧
    Found env.fs cfg.currdir q ∧ g.Answered cfg (requestsOf env cfg q) node.children

/-- The node is that of no file, and these are its children. -/
def BareNode (cfg : Config) (g : Graph) (n : ℕ) (requests : List Request) : Prop :=
  ∃ node, g.nodes[n]? = some node ∧ node.file = none ∧ g.Answered cfg requests node.children

/-- The requests of a node that is that of no file. -/
def Request.onward (env : Sources) (cfg : Config) : Request → List Request
  | .next fp => nextRequests env cfg fp
  | _ => []

theorem children_of_node {node : Node} (h : g.nodes[n]? = some node) :
    g.children n = node.children := by
  rw [Graph.children, h]
  rfl

/-- **The node of a request** that asks for a file. -/
theorem fileNode_of_request (hmemo : Memo env [] g)
    (h : g.masterCache (cfg, .request request) = some n)
    (htarget : request.target env cfg = some p) :
    ∃ q, FileNode env cfg g n q ∧ Same env.fs cfg.currdir q p := by
  obtain ⟨node, hnode, hstands, hdone⟩ := hmemo _ _ _ h
  rw [Stands, htarget] at hstands
  obtain ⟨q, hfile, hfound, hreal, hdir⟩ := hstands
  have hanswered := hdone not_mem_nil
  rw [due_of_file hfile] at hanswered
  exact ⟨q, ⟨node, hnode, hreal ▸ hfile, hfound, hanswered⟩, hreal, hdir⟩

/-- The node of a request that asks for none. -/
theorem bareNode_of_request (hmemo : Memo env [] g)
    (h : g.masterCache (cfg, .request request) = some n)
    (htarget : request.target env cfg = none) :
    BareNode cfg g n (request.onward env cfg) := by
  obtain ⟨node, hnode, hstands, hdone⟩ := hmemo _ _ _ h
  rw [Stands, htarget] at hstands
  have hanswered := hdone not_mem_nil
  refine ⟨node, hnode, hstands, ?_⟩
  unfold due at hanswered
  rw [hstands] at hanswered
  cases request <;> exact hanswered

theorem mem_requestsOf : request ∈ requestsOf env cfg q ↔
    (∃ fp ∈ (env.includes (realOf env.fs cfg.currdir q)).quote, .quote fp (dirOf q) = request) ∨
    (∃ fp ∈ (env.includes (realOf env.fs cfg.currdir q)).angle, .angle fp = request) ∨
    ∃ fp ∈ (env.includes (realOf env.fs cfg.currdir q)).next, .next fp = request := by
  simp only [requestsOf, mem_append, mem_map, or_assoc]

theorem mem_nextRequests {fp : CString} : request ∈ nextRequests env cfg fp ↔
    ∃ d ∈ cfg.quoteDirs, ∃ p, search env.fs cfg.currdir [d] fp = some p ∧
      .resolved p = request := by
  simp only [nextRequests, mem_filterMap, Option.map_eq_some_iff]

theorem found_of_reflTransGen (hp : Found env.fs cfg.currdir p)
    (h : ReflTransGen (IncludesFile env cfg) p q) : Found env.fs cfg.currdir q := by
  cases h with
  | refl => exact hp
  | tail _ hstep => exact hstep.found

/-- What a node below that of `p` can be: that of a file that is reached, or one on the way
to such files. -/
def Shown (env : Sources) (cfg : Config) (g : Graph) (p : Pair) (n : ℕ) : Prop :=
  (∃ q p₁, FileNode env cfg g n q ∧ Same env.fs cfg.currdir q p₁ ∧
    ReflTransGen (IncludesFile env cfg) p p₁) ∨
  (∃ requests, BareNode cfg g n requests ∧ ∀ r ∈ requests, ∃ p₁, r = .resolved p₁ ∧
    ReflTransGen (IncludesFile env cfg) p p₁)

variable (hmemo : Memo env [] g)
include hmemo

/-- The node of a request for a file that is reached. -/
theorem shown_of_request (h : g.masterCache (cfg, .request request) = some n) {q₁ p₁ : Pair}
    (htarget : request.target env cfg = some q₁) (hsame : Same env.fs cfg.currdir q₁ p₁)
    (hreach : ReflTransGen (IncludesFile env cfg) p p₁) : Shown env cfg g p n := by
  obtain ⟨q₂, hfile, hsame2⟩ := fileNode_of_request hmemo h htarget
  exact .inl ⟨q₂, p₁, hfile, hsame2.trans hsame, hreach⟩

variable (hp : Found env.fs cfg.currdir p)
include hp

/-- **A child of a node below `p`** is one, too. -/
theorem Shown.child (h : Shown env cfg g p n) (hm : m ∈ g.children n) : Shown env cfg g p m := by
  obtain ⟨q, p₁, ⟨node, hnode, -, hq, hanswered⟩, hsame, hreach⟩ |
    ⟨requests, ⟨node, hnode, -, hanswered⟩, hrequests⟩ := h
  · rw [children_of_node hnode] at hm
    obtain ⟨request, hmem, hkey⟩ := forall₂_exists_left hanswered hm
    have hp1 := found_of_reflTransGen hp hreach
    -- What the name in the node includes, the name that is reached includes as well.
    have hincluded : ∀ q₁, request.target env cfg = some q₁ → IncludesFile env cfg q q₁ →
        Shown env cfg g p m := by
      intro q₁ htarget hincludes
      obtain ⟨p₂, hincludes2, hsame2⟩ := hincludes.same hq hp1 hsame
      exact shown_of_request hmemo hkey htarget hsame2 (hreach.tail hincludes2)
    cases htarget : request.target env cfg with
    | some q₁ =>
      refine hincluded q₁ htarget ?_
      obtain ⟨fp, hfp, rfl⟩ | ⟨fp, hfp, rfl⟩ | ⟨fp, hfp, rfl⟩ := mem_requestsOf.mp hmem
      · exact .quote hfp htarget
      · exact .angle hfp htarget
      · cases htarget
    | none =>
      refine .inr ⟨_, bareNode_of_request hmemo hkey htarget, fun r hr => ?_⟩
      obtain ⟨fp, hfp, rfl⟩ | ⟨fp, hfp, rfl⟩ | ⟨fp, hfp, rfl⟩ := mem_requestsOf.mp hmem
      · cases hr
      · cases hr
      · obtain ⟨d, hd, p₂, hsearch, rfl⟩ := mem_nextRequests.mp hr
        exact ⟨p₂, rfl, hreach.tail (.next (hsame.1 ▸ hfp) hd hsearch)⟩
  · rw [children_of_node hnode] at hm
    obtain ⟨request, hmem, hkey⟩ := forall₂_exists_left hanswered hm
    obtain ⟨p₁, rfl, hreach⟩ := hrequests request hmem
    exact shown_of_request hmemo hkey rfl (Same.refl _ _ _) hreach

variable (hroot : g.masterCache (cfg, .request (.resolved p)) = some n)
include hroot

theorem shown_of_path
    (h : ReflTransGen (fun a b => b ∈ g.children a) n m) : Shown env cfg g p m := by
  induction h with
  | refl => exact shown_of_request hmemo hroot rfl (Same.refl _ _ _) .refl
  | tail _ hchild ih => exact ih.child hmemo hp hchild

/-- **What is reached has a node**, by some name of the same file in the same directory. -/
theorem fileNode_of_reached {p₁ : Pair} (h : ReflTransGen (IncludesFile env cfg) p p₁) :
    ∃ m q, ReflTransGen (fun a b => b ∈ g.children a) n m ∧ FileNode env cfg g m q ∧
      Same env.fs cfg.currdir q p₁ := by
  induction h with
  | refl =>
    obtain ⟨q, hfile, hsame⟩ := fileNode_of_request hmemo hroot rfl
    exact ⟨n, q, .refl, hfile, hsame⟩
  | tail hreach hstep ih =>
    obtain ⟨m, q, hpath, ⟨node, hnode, -, hq, hanswered⟩, hsame⟩ := ih
    obtain ⟨q₁, hincludes, hsame1⟩ :=
      hstep.same (found_of_reflTransGen hp hreach) hq hsame.symm
    -- One child further, or two.
    have hchild : ∀ {request}, request ∈ requestsOf env cfg q →
        ∃ c, g.masterCache (cfg, .request request) = some c ∧
          ReflTransGen (fun a b => b ∈ g.children a) n c := by
      intro request hmem
      obtain ⟨c, hc, hkey⟩ := forall₂_exists_right hanswered hmem
      exact ⟨c, hkey, hpath.tail (children_of_node hnode ▸ hc)⟩
    cases hincludes with
    | quote hfp hsearch =>
      obtain ⟨c, hkey, hpath'⟩ := hchild (mem_requestsOf.mpr (.inl ⟨_, hfp, rfl⟩))
      obtain ⟨q₂, hfile, hsame2⟩ := fileNode_of_request hmemo hkey hsearch
      exact ⟨c, q₂, hpath', hfile, hsame2.trans hsame1.symm⟩
    | angle hfp hsearch =>
      obtain ⟨c, hkey, hpath'⟩ := hchild (mem_requestsOf.mpr (.inr (.inl ⟨_, hfp, rfl⟩)))
      obtain ⟨q₂, hfile, hsame2⟩ := fileNode_of_request hmemo hkey hsearch
      exact ⟨c, q₂, hpath', hfile, hsame2.trans hsame1.symm⟩
    | next hfp hd hsearch =>
      obtain ⟨c, hkey, hpath'⟩ := hchild (mem_requestsOf.mpr (.inr (.inr ⟨_, hfp, rfl⟩)))
      obtain ⟨dummy, hdummy, -, hnext⟩ := bareNode_of_request hmemo hkey rfl
      obtain ⟨c', hc', hkey'⟩ :=
        forall₂_exists_right hnext (mem_nextRequests.mpr ⟨_, hd, _, hsearch, rfl⟩)
      obtain ⟨q₂, hfile, hsame2⟩ := fileNode_of_request hmemo hkey' rfl
      exact ⟨c', q₂, hpath'.tail (children_of_node hdummy ▸ hc'), hfile,
        hsame2.trans hsame1.symm⟩

/-- **The files below the node of a translation unit** are those that it reaches. -/
theorem reaches_iff {real : CString} :
    (∃ m node pair, ReflTransGen (fun a b => b ∈ g.children a) n m ∧
        g.nodes[m]? = some node ∧ node.file = some (pair, real)) ↔
      Reaches env cfg p real := by
  constructor
  · rintro ⟨m, node, pair, hpath, hnode, hfile⟩
    have hshown := shown_of_path hmemo hp hroot hpath
    obtain ⟨q, p₁, ⟨node', hnode', hfile', -⟩, hsame, hreach⟩ |
      ⟨requests, ⟨node', hnode', hnone, -⟩, -⟩ := hshown
    · obtain rfl := Option.some.inj (hnode.symm.trans hnode')
      obtain ⟨-, rfl⟩ := Prod.mk.inj (Option.some.inj (hfile.symm.trans hfile'))
      exact ⟨p₁, hreach, hsame.1.symm⟩
    · obtain rfl := Option.some.inj (hnode.symm.trans hnode')
      rw [hnone] at hfile
      cases hfile
  · rintro ⟨p₁, hreach, rfl⟩
    obtain ⟨m, q, hpath, ⟨node, hnode, hfile, -⟩, hsame⟩ :=
      fileNode_of_reached hmemo hp hroot hreach
    exact ⟨m, node, q, hpath, hnode, hsame.1 ▸ hfile⟩

end Reading

/-! ### Deeper calls -/

section Deeper

variable {env : Sources} {cfg : Config} {find find' : Request → Option CString → Run ℕ}

section Calls

variable (h : ∀ r real, (find r real).Below (find' r real))

include h

theorem includeChild_below (n record : ℕ) (request : Request) (real : Option CString) :
    (includeChild find n record request real).Below (includeChild find' n record request real) :=
  (h request real).bind_left

theorem nextChild_below (n : ℕ) (fp : CString) (d : Directory) :
    (nextChild env cfg find n fp d).Below (nextChild env cfg find' n fp d) := by
  refine .bind_right fun file => ?_
  cases file with
  | none => exact .refl _
  | some file => exact (h _ _).bind_left

theorem exprChildren_below (n record : ℕ) (dir : Directory) (expr : CString) :
    (exprChildren env cfg find n record dir expr).Below
      (exprChildren env cfg find' n record dir expr) := by
  refine .bind_right fun st => ?_
  split
  · exact .refl _
  · refine (Prog.Below.forEach (fun file => ?_) _).bind_left
    cases file with
    | none => exact .refl _
    | some file => exact includeChild_below h _ _ _ _

theorem fileChildren_below (n record : ℕ) (real : CString) (dir : Directory) :
    (fileChildren env cfg find n record real dir).Below
      (fileChildren env cfg find' n record real dir) :=
  .bind_right fun _ => .bind_right fun _ =>
    (Prog.Below.forEach (fun _ => includeChild_below h _ _ _ _) _).bind fun _ =>
    (Prog.Below.forEach (fun _ => includeChild_below h _ _ _ _) _).bind fun _ =>
    (Prog.Below.forEach (fun _ => exprChildren_below h _ _ _ _) _).bind fun _ =>
    Prog.Below.forEach (fun _ => includeChild_below h _ _ _ _) _

theorem fillNode_below (request : Request) (file : Option (Pair × CString)) (record n : ℕ) :
    (fillNode env cfg find request file record n).Below
      (fillNode env cfg find' request file record n) := by
  unfold fillNode
  split
  · exact (Prog.Below.forEach (fun _ => nextChild_below h _ _ _) _).bind_left
  · exact .refl _
  · refine .bind_right fun _ => .bind_right fun known => ?_
    cases known with
    | none => exact (fileChildren_below h _ _ _ _).bind_left
    | some n' => exact .refl _

theorem buildNode_below (request : Request) (file : Option (Pair × CString)) (record : ℕ) :
    (buildNode env cfg find request file record).Below
      (buildNode env cfg find' request file record) :=
  .bind_right fun _ => .bind_right fun _ =>
    .bind_right fun _ => fillNode_below h _ _ _ _

theorem findNodeBody_below (request : Request) (real : Option CString) :
    (findNodeBody env cfg find request real).Below (findNodeBody env cfg find' request real) := by
  refine .bind_right fun st => ?_
  split
  · split
    · exact .refl _
    · exact buildNode_below h _ _ _
  · exact .bind_right fun _ => .bind_right fun _ =>
      buildNode_below h _ _ _

end Calls

/-- **Where calls of some depth suffice**, deeper ones give the same. -/
theorem findNode_below {depth depth' : ℕ} (hle : depth ≤ depth') (request : Request)
    (real : Option CString) :
    (findNode env cfg depth request real).Below (findNode env cfg depth' request real) := by
  induction depth generalizing depth' request real with
  | zero => exact never_below _
  | succ depth ih =>
    obtain ⟨depth', rfl⟩ : ∃ k, depth' = k + 1 := ⟨depth' - 1, by omega⟩
    exact findNodeBody_below (fun r real => ih (by omega) r real) request real

theorem calculateIncludeClosure_below {turns turns' : ℕ} (hle : turns ≤ turns') (n : ℕ) :
    (calculateIncludeClosureExceptSystem env turns n).Below
      (calculateIncludeClosureExceptSystem env turns' n) := by
  refine .bind_right fun st => ?_
  split
  · exact never_below _
  · case h_2 closure hclosure =>
    rw [explore_mono hle hclosure]
    exact .refl _

theorem runAlgorithm_below {fuel fuel' : ℕ} (hle : fuel ≤ fuel') (call : Call env.fs) :
    (runAlgorithm env fuel call).Below (runAlgorithm env fuel' call) :=
  .bind_right fun _ => (findNode_below hle _ _).bind fun _ =>
    calculateIncludeClosure_below hle _

end Deeper

/-! ### The keys of a search -/

section Keys

variable {env : Sources} {cfg : Config}

/-- The include paths of `#include_next` in all files. -/
def nextPaths (env : Sources) : List CString :=
  env.fs.places.flatMap fun loc => (env.includes (render loc)).next

/-- The keys that a search for a translation unit can take to go on. -/
def searchKeys (env : Sources) (cfg : Config) (unit : Pair) : Finset Key :=
  (env.fs.places.flatMap (fun file => env.fs.places.map fun dir =>
      Key.real (render file) (render dir)) ++
    (nextPaths env).map (fun fp => Key.request (.next fp)) ++
    cfg.quoteDirs.flatMap (fun d => (nextPaths env).map fun fp =>
      Key.request (.resolved (d, fp))) ++
    [Key.request (.resolved unit)]).toFinset

theorem request_next_mem_searchKeys {unit : Pair} {fp : CString} :
    .request (.next fp) ∈ searchKeys env cfg unit ↔ fp ∈ nextPaths env := by
  simp [searchKeys]

theorem covers_searchKeys (env : Sources) (cfg : Config) (unit : Pair) :
    Covers env cfg (searchKeys env cfg unit) where
  real p hp := by
    obtain ⟨file, dir, hfile, hdir, hreal, hdirReal, -⟩ := hp.places
    have hfile' := env.fs.mem_places file (hfile ▸ Option.some_ne_none _)
    have hdir' := env.fs.mem_places dir hdir
    rw [hreal, hdirReal, searchKeys, mem_toFinset, append_assoc, append_assoc]
    refine mem_append_left _ (mem_flatMap.mpr ⟨file, hfile', ?_⟩)
    exact mem_map.mpr ⟨dir, hdir', rfl⟩
  next p hp fp hfp := by
    obtain ⟨file, -, hfile, -, hreal, -⟩ := hp.places
    have hfile' := env.fs.mem_places file (hfile ▸ Option.some_ne_none _)
    rw [hreal] at hfp
    exact request_next_mem_searchKeys.mpr (mem_flatMap.mpr ⟨file, hfile', hfp⟩)
  resolved fp hfp d hd p hp := by
    have hnext := request_next_mem_searchKeys.mp hfp
    obtain rfl : p = (d, fp) := by
      have hrel : fp.head? ≠ some 47 := by
        intro habs
        rw [search, if_pos habs] at hp
        cases hp
      rw [search_cons hrel] at hp
      split at hp
      · exact (Option.some.inj hp).symm
      · rw [search, if_neg hrel] at hp
        cases hp
    simp only [searchKeys, mem_toFinset, mem_append, mem_flatMap, mem_map]
    exact .inl (.inr ⟨d, hd, fp, hnext, rfl⟩)

theorem unit_mem_searchKeys (unit : Pair) :
    .request (.resolved unit) ∈ searchKeys env cfg unit := by
  rw [searchKeys, mem_toFinset]
  exact mem_append_right _ mem_cons_self

end Keys

/-! ### What is collected -/

section Collecting

variable {env : Sources} {closure : Closure} {node : Node} {real : CString}

theorem map_fst_addToClosure :
    (addToClosure env closure node).map Prod.fst =
      match node.file with
      | none => closure.map Prod.fst
      | some (_, real) =>
        if startsWithSystemdir env real ∨ real ∈ closure.map Prod.fst then closure.map Prod.fst
        else closure.map Prod.fst ++ [real] := by
  unfold addToClosure
  cases node.file with
  | none => rfl
  | some file =>
    obtain ⟨pair, real⟩ := file
    by_cases hsystem : startsWithSystemdir env real = true
    · simp [hsystem]
    · by_cases hmem : real ∈ closure.map Prod.fst <;>
        by_cases habs : pair.1.string.head? = some 47 <;>
        simp [hsystem, hmem, habs, Function.comp_def, apply_ite Prod.fst]

/-- The keys that a node adds. -/
theorem mem_addToClosure :
    real ∈ (addToClosure env closure node).map Prod.fst ↔ real ∈ closure.map Prod.fst ∨
      startsWithSystemdir env real = false ∧ ∃ pair, node.file = some (pair, real) := by
  rw [map_fst_addToClosure]
  cases node.file with
  | none => simp
  | some file =>
    obtain ⟨pair, real'⟩ := file
    have hfile : (∃ pair', some (pair, real') = some (pair', real)) ↔ real = real' := by
      simp [eq_comm]
    rw [hfile]
    dsimp only
    split
    · case isTrue hskip =>
      constructor
      · exact .inl
      · rintro (hmem | ⟨hsystem, rfl⟩)
        · exact hmem
        · exact hskip.resolve_left (Bool.eq_false_iff.mp hsystem)
    · case isFalse hskip =>
      rw [not_or, Bool.not_eq_true] at hskip
      rw [mem_append, mem_singleton]
      constructor
      · exact Or.imp_right fun heq => ⟨heq ▸ hskip.1, heq⟩
      · exact Or.imp_right And.right

/-- The keys that some nodes add. -/
theorem mem_foldl_addToClosure {nodes : List Node} {order : List ℕ} :
    real ∈ (order.foldl (fun closure n => (nodes[n]?.map (addToClosure env closure)).getD closure)
        closure).map Prod.fst ↔
      real ∈ closure.map Prod.fst ∨ startsWithSystemdir env real = false ∧
        ∃ n ∈ order, ∃ node pair, nodes[n]? = some node ∧ node.file = some (pair, real) := by
  induction order generalizing closure with
  | nil => simp
  | cons n order ih =>
    rw [foldl_cons, ih]
    cases hnode : nodes[n]? with
    | none => simp [hnode]
    | some node =>
      rw [Option.map_some, Option.getD_some, mem_addToClosure]
      simp only [mem_cons, exists_eq_or_imp, hnode, Option.some.injEq]
      constructor
      · rintro ((hmem | ⟨hsystem, pair, hfile⟩) | ⟨hsystem, hrest⟩)
        · exact .inl hmem
        · exact .inr ⟨hsystem, .inl ⟨node, pair, rfl, hfile⟩⟩
        · exact .inr ⟨hsystem, .inr hrest⟩
      · rintro (hmem | ⟨hsystem, ⟨_, pair, rfl, hfile⟩ | hrest⟩)
        · exact .inl (.inl hmem)
        · exact .inl (.inr ⟨hsystem, pair, hfile⟩)
        · exact .inr ⟨hsystem, hrest⟩

end Collecting

/-! ### Calls -/

section Calls

variable {env : Sources} {st st' : Analyzer}

/-- A definition on the command line that is not accepted. -/
def Rejected (env : Sources) (call : Call env.fs) (e : PyExc) : Prop :=
  ∃ lhs rhs, [lhs, rhs] ∈ call.dOpts ∧ env.macroDef lhs rhs = .error e

/-- **The closure is exact**: its keys are the real paths that the translation unit
reaches without any cache, but for those in system directories. -/
def Exact (env : Sources) (call : Call env.fs) (closure : Closure) : Prop :=
  ∀ real, real ∈ closure.map Prod.fst ↔
    startsWithSystemdir env real = false ∧ Reaches env call.config call.pair real

theorem processDOpts_run (opts : List (List CString)) (h : Valid env st) :
    (∃ st', Prog.forEach (processDOpt env) opts st = some (.ok (), st') ∧ Aside env st st') ∨
      ∃ e st' lhs rhs, Prog.forEach (processDOpt env) opts st = some (.error e, st') ∧
        [lhs, rhs] ∈ opts ∧ env.macroDef lhs rhs = .error e := by
  induction opts generalizing st with
  | nil => exact .inl ⟨st, rfl, h, rfl⟩
  | cons opt opts ih =>
    have hopt : (∃ st₁, processDOpt env opt st = some (.ok (), st₁) ∧ Aside env st st₁) ∨
        ∃ e lhs rhs, processDOpt env opt st = some (.error e, st) ∧ opt = [lhs, rhs] ∧
          env.macroDef lhs rhs = .error e := by
      unfold processDOpt
      split
      · case h_1 lhs rhs =>
        cases hdef : env.macroDef lhs rhs with
        | error e => exact .inr ⟨e, lhs, rhs, rfl, rfl, hdef⟩
        | ok df => exact .inl (insertMacroDef_run h df.1 df.2)
      · exact .inl ⟨st, rfl, h, rfl⟩
    obtain ⟨st₁, hrun, haside⟩ | ⟨e, lhs, rhs, hrun, rfl, hdef⟩ := hopt
    · obtain ⟨st', hrest, haside'⟩ | ⟨e, st', lhs, rhs, hrest, hmem, hdef⟩ := ih haside.valid
      · exact .inl ⟨st', (bind_of_ok hrun).trans hrest, haside.trans haside'⟩
      · exact .inr ⟨e, st', lhs, rhs, (bind_of_ok hrun).trans hrest,
          mem_cons_of_mem _ hmem, hdef⟩
    · exact .inr ⟨e, st, lhs, rhs, bind_eq_error_iff.mpr (.inl hrun),
        mem_cons_self, hdef⟩

/-- The closure of a node, in enough turns. -/
theorem calculateIncludeClosure_run (env : Sources) (st : Analyzer) (n : ℕ) :
    ∃ turns closure, calculateIncludeClosureExceptSystem env turns n st =
        some (.ok closure, st) ∧
      ∀ real, real ∈ closure.map Prod.fst ↔ startsWithSystemdir env real = false ∧
        ∃ m node pair, ReflTransGen (fun a b => b ∈ st.graph.children a) n m ∧
          st.graph.nodes[m]? = some node ∧ node.file = some (pair, real) := by
  have hbound : ∀ m, st.graph.nodes.length ≤ m → st.graph.children m = [] := by
    intro m hm
    rw [Graph.children, getElem?_eq_none hm]
    rfl
  obtain ⟨turns, closure, hclosure⟩ : ∃ turns closure, explore st.graph.children
      (fun closure n => (st.graph.nodes[n]?.map (addToClosure env closure)).getD closure)
      turns [n] [] [] = some closure :=
    ⟨_, explore_returns hbound (Nat.le_refl _)⟩
  refine ⟨turns, closure, ?_, fun real => ?_⟩
  · rw [calculateIncludeClosureExceptSystem, get_bind, hclosure]
    rfl
  · obtain ⟨order, rfl, horder⟩ := mem_explore_iff hclosure
    rw [mem_foldl_addToClosure]
    simp only [map_nil, not_mem_nil, false_or, horder]
    constructor
    · rintro ⟨hsystem, m, hpath, node, pair, hnode, hfile⟩
      exact ⟨hsystem, m, node, pair, hpath, hnode, hfile⟩
    · rintro ⟨hsystem, m, node, pair, hpath, hnode, hfile⟩
      exact ⟨hsystem, m, hpath, node, pair, hnode, hfile⟩

/-- **One call**, from a cache that holds what it should. -/
theorem runAlgorithm_run (hplain : env.Plain) (hvalid : Valid env st)
    (hmemo : Memo env [] st.graph) (call : Call env.fs) :
    ∃ fuel result st', runAlgorithm env fuel call st = some (result, st') ∧
      match result with
      | .error e => Rejected env call e
      | .ok closure => Exact env call closure ∧ Valid env st' ∧ Memo env [] st'.graph := by
  obtain ⟨st₁, hopts, haside⟩ | ⟨e, st₁, lhs, rhs, hopts, hmem, hdef⟩ :=
    processDOpts_run call.dOpts hvalid
  · have hcovers := covers_searchKeys env call.config call.pair
    have hwanted : Wanted env call.config (searchKeys env call.config call.pair)
        (.resolved call.pair) (some (realOf env.fs call.config.currdir call.pair)) :=
      ⟨rfl, call.found, unit_mem_searchKeys _⟩
    obtain ⟨depth, n, st₂, hfind, hstep, hroot⟩ : ∃ depth n st₂,
        findNode env call.config depth (.resolved call.pair)
          (some (realOf env.fs call.config.currdir call.pair)) st₁ = some (.ok n, st₂) ∧
        Step env call.config [] st₁ st₂ ∧
        st₂.graph.masterCache (call.config, .request (.resolved call.pair)) = some n :=
      ⟨_, findNode_answers hplain hcovers _ _ _ [] st₁ hwanted haside.valid
        (haside.graph ▸ hmemo) (Nat.lt_succ_self _)⟩
    obtain ⟨turns, closure, hclosure, hkeys⟩ := calculateIncludeClosure_run env st₂ n
    refine ⟨max depth turns, .ok closure, st₂, ?_, ?_, hstep.valid, hstep.memo⟩
    · exact (bind_of_ok hopts).trans ((bind_of_ok
        (findNode_below (Nat.le_max_left _ _) _ _ hfind)).trans
        (calculateIncludeClosure_below (Nat.le_max_right _ _) n hclosure))
    · intro real
      rw [hkeys, reaches_iff hstep.memo call.found hroot]
  · exact ⟨0, .error e, st₁, bind_eq_error_iff.mpr (.inl hopts), lhs, rhs, hmem, hdef⟩

/-- **The states of the analyzer** after any calls that succeeded. -/
inductive History (env : Sources) : Analyzer → Prop
  | start : History env {}
  | call {st st' : Analyzer} {fuel : ℕ} {call : Call env.fs} {closure : Closure} :
      History env st → runAlgorithm env fuel call st = some (.ok closure, st') → History env st'

/-- After any calls the cache holds what it should. -/
theorem History.memo (hplain : env.Plain) (h : History env st) :
    Valid env st ∧ Memo env [] st.graph := by
  induction h with
  | start => exact ⟨valid_init env, memo_empty⟩
  | call _ hrun ih =>
    obtain ⟨fuel', result, st₂, hrun', hresult⟩ := runAlgorithm_run hplain ih.1 ih.2 _
    have heq := (runAlgorithm_below (Nat.le_max_left _ fuel') _ hrun).symm.trans
      (runAlgorithm_below (Nat.le_max_right _ fuel') _ hrun')
    obtain ⟨rfl, rfl⟩ := Prod.mk.inj (Option.some.inj heq)
    exact hresult.2

/-- **The closure of every call**, after any calls before it: the call returns, with deep
enough recursion, and unless an option `-D` is not accepted it returns the non-system real
paths that are reached without any cache. -/
theorem runAlgorithm_closure (hplain : env.Plain) (hst : History env st) (call : Call env.fs) :
    ∃ fuel₀ result st',
      (∀ fuel, fuel₀ ≤ fuel → runAlgorithm env fuel call st = some (result, st')) ∧
      match result with
      | .error e => Rejected env call e
      | .ok closure => Exact env call closure := by
  obtain ⟨hvalid, hmemo⟩ := hst.memo hplain
  obtain ⟨fuel₀, result, st', hrun, hresult⟩ := runAlgorithm_run hplain hvalid hmemo call
  refine ⟨fuel₀, result, st', fun fuel hle => runAlgorithm_below hle call hrun, ?_⟩
  cases result with
  | error e => exact hresult
  | ok closure => exact hresult.1

end Calls

/-! ### A file that includes itself by longer and longer names -/

/-- The file `/w/D/mem.h`, and a link `/w/L` to its directory. -/
def memTable : List (Loc × FsEntry) :=
  [([lit "w"], .directory), ([lit "w", lit "D"], .directory),
    ([lit "w", lit "D", lit "mem.h"], .file), ([lit "w", lit "L"], .link (lit "D"))]

theorem memTable_ok : tableOk memTable = true := by decide +kernel

/-- It has `#include "../L/mem.h"`. -/
def memSources : Sources where
  fs := .ofTable memTable memTable_ok
  systemdirs := [lit "/usr/include/"]
  parse _ := ⟨[], .ok ⟨[lit "../L/mem.h"], [], [], []⟩⟩
  macroDef lhs rhs := .ok (lhs, ⟨none, some rhs⟩)
  resolveExpr _ _ _ _ _ _ := .ok ([], ∅)

/-- It is compiled as `D/mem.h` in `/w`. -/
def memCall : Call memSources.fs where
  config := ⟨⟨lit "/w/", by decide⟩, [], []⟩
  pair := (⟨[], isDirectory_nil⟩, lit "D/mem.h")
  found := ⟨by decide, by decide +kernel⟩
  dOpts := []

theorem memSources_plain : memSources.Plain := fun _ _ => ⟨_, rfl, rfl⟩

/-- There is one file to be reached, although there is no end to its names. -/
theorem runAlgorithm_closure_mem :
    ∃ closure st, runAlgorithm memSources 10 memCall {} = some (.ok closure, st) ∧
      closure.map Prod.fst = [lit "/w/D/mem.h"] ∧ Exact memSources memCall closure := by
  have hyields : (runAlgorithm memSources 10 memCall).yields {}
      (fun closure _ => closure.map Prod.fst = [lit "/w/D/mem.h"]) = true := by
    decide +kernel
  obtain ⟨closure, st, hrun, hkeys⟩ := exists_of_yields hyields
  obtain ⟨fuel₀, result, st', hall, hresult⟩ :=
    runAlgorithm_closure memSources_plain .start memCall
  -- both fuels give what the larger of them gives
  have heq := (runAlgorithm_below (Nat.le_max_left 10 fuel₀) memCall hrun).symm.trans
    (hall _ (Nat.le_max_right 10 fuel₀))
  obtain ⟨rfl, -⟩ := Prod.mk.inj (Option.some.inj heq)
  exact ⟨closure, st, hrun, of_decide_eq_true hkeys, hresult⟩

end Distcc.IncludeServer
