import Distcc.IncludeServer.Memo

/-!
# `FindNode` returns, and what it leaves

With plain includes, `FindNode` always returns a node, and the cache then holds what it
should: that is `findNode_answers`. Both are proved at once, by
induction on how deep the calls are. A call that goes on takes a key that was missing, so
that the calls below it have one less to take. While they run the node is under way, and
each of them answers one of the requests that are due
(`Building.includeChild`).
-/

namespace Distcc.IncludeServer

open List Prog

/-! ### The other caches -/

/-- What the caches hold is true, and no support record depends on anything. -/
structure Valid (env : Sources) (st : Analyzer) : Prop where
  stat : st.buildStatCache.Consistent env.fs
  dirname : st.dirnameCache.Consistent env.fs
  file : Remembers (fun real includes => (env.parse real).result = .ok includes) st.fileCache
  support : st.supportMaster.Unsupported

theorem valid_init (env : Sources) : Valid env {} where
  stat := BuildStatCache.consistent_empty
  dirname := DirnameCache.consistent_empty
  file := remembers_empty
  support := SupportMaster.unsupported_default

/-- A step that has nothing to do with the graph. -/
structure Aside (env : Sources) (st st' : Analyzer) : Prop where
  valid : Valid env st'
  graph : st'.graph = st.graph

/-- The graph does not matter. -/
theorem Valid.withGraph {env : Sources} {st : Analyzer} (h : Valid env st) (g : Graph) :
    Valid env { st with graph := g } :=
  ⟨h.stat, h.dirname, h.file, h.support⟩

section Steps

variable {env : Sources} {cfg : Config} {st : Analyzer} {fp real : CString} {p : Pair}

theorem resolve_run (h : Valid env st) (cfg : Config) (fp : CString)
    (searchdir : Option Directory) (dirs : List Directory) :
    ∃ st', resolve env cfg fp searchdir dirs st = some (.ok
        ((search env.fs cfg.currdir (searchdir.toList ++ dirs) fp).map fun p =>
          (p, realOf env.fs cfg.currdir p)), st') ∧ Aside env st st' := by
  obtain ⟨hfile, hcache⟩ := BuildStatCache.resolve_eq h.stat fp cfg.currdir searchdir dirs
  rw [← hfile]
  exact ⟨_, rfl, ⟨hcache, h.dirname, h.file, h.support⟩, rfl⟩

theorem lookupDirname_run (h : Valid env st) (cfg : Config) (hrel : p.2.head? ≠ some 47) :
    ∃ st', lookupDirname env cfg p st =
        some (.ok (dirOf p, dirRealOf env.fs cfg.currdir p), st') ∧ Aside env st st' := by
  obtain ⟨hdir, hcache⟩ := DirnameCache.lookup_eq h.dirname cfg.currdir hrel
  refine ⟨{ st with dirnameCache := (st.dirnameCache.lookup env.fs cfg.currdir p).2 }, ?_,
    ⟨h.stat, hcache, h.file, h.support⟩, rfl⟩
  rw [lookupDirname, get_bind]
  dsimp only
  rw [modify_bind, hdir]
  rfl

theorem insertMacroDef_run (h : Valid env st) (symbol : CString) (df : MacroDef) :
    ∃ st', insertMacroDef symbol df st = some (.ok (), st') ∧ Aside env st st' := by
  refine ⟨_, rfl, ⟨h.stat, h.dirname, h.file, ?_⟩, rfl⟩
  change (st.supportMaster.invalidateRecords symbol).Unsupported
  rw [h.support.invalidateRecords]
  exact h.support

theorem mirror_run (h : Valid env st) (cfg : Config) (file : Option (Pair × CString)) :
    ∃ st', mirror cfg file st = some (.ok (), st') ∧ Aside env st st' := by
  cases file with
  | none => exact ⟨st, rfl, h, rfl⟩
  | some file =>
    by_cases hmem : (file.1, cfg.currdir) ∈ st.mirrored
    · exact ⟨st, congrArg (fun st => some (Except.ok (), st)) (if_pos hmem), h, rfl⟩
    · exact ⟨_, congrArg (fun st => some (Except.ok (), st)) (if_neg hmem),
        ⟨h.stat, h.dirname, h.file, h.support⟩, rfl⟩

theorem Aside.trans {st' st'' : Analyzer} (h : Aside env st st') (h' : Aside env st' st'') :
    Aside env st st'' :=
  ⟨h'.valid, h'.graph.trans h.graph⟩

/-- What depends on nothing adds nothing to a support record. -/
theorem updateSupport_empty (record : ℕ) : updateSupport record ∅ st = some (.ok (), st) := by
  change some (Except.ok (), { st with supportMaster := st.supportMaster.update record ∅ }) = _
  rw [SupportMaster.update_empty]

/-- The includes of a file that was parsed, or is parsed now. -/
theorem includesOf_run (h : Valid env st) {includes : Includes}
    (hparse : (env.parse real).result = .ok includes) :
    ∃ st', includesOf env real st = some (.ok includes, st') ∧ Aside env st st' := by
  cases hcache : st.fileCache real with
  | some known =>
    obtain rfl := Except.ok.inj ((h.file _ _ hcache).symm.trans hparse)
    refine ⟨st, ?_, h, rfl⟩
    rw [includesOf, get_bind, hcache]
    rfl
  | none =>
    obtain ⟨st₁, hdefines, haside⟩ : ∃ st₁,
        Prog.forEach (fun df : CString × MacroDef => insertMacroDef df.1 df.2)
          (env.parse real).defines st = some (.ok (), st₁) ∧ Aside env st st₁ := by
      refine forEach_returns (I := fun _ st₁ => Aside env st st₁)
        (fun _ df _ st₁ h1 => ?_) ⟨h, rfl⟩
      obtain ⟨st₂, hrun, h2⟩ := insertMacroDef_run h1.valid df.1 df.2
      exact ⟨st₂, hrun, h1.trans h2⟩
    refine ⟨{ st₁ with fileCache := Function.update st₁.fileCache real (some includes) }, ?_,
      ⟨haside.valid.stat, haside.valid.dirname, haside.valid.file.update hparse,
        haside.valid.support⟩, haside.graph⟩
    rw [includesOf, get_bind, hcache]
    rw [bind_of_ok hdefines, hparse]
    rfl

end Steps

/-! ### Calls -/

/-- The keys that a search in a configuration could still take, to go on: the real paths of
files, and what comes from `#include_next`. -/
structure Covers (env : Sources) (cfg : Config) (keys : Finset Key) : Prop where
  real : ∀ p, Found env.fs cfg.currdir p →
    .real (realOf env.fs cfg.currdir p) (dirRealOf env.fs cfg.currdir p) ∈ keys
  next : ∀ p, Found env.fs cfg.currdir p →
    ∀ fp ∈ (env.includes (realOf env.fs cfg.currdir p)).next, .request (.next fp) ∈ keys
  resolved : ∀ fp, .request (.next fp) ∈ keys → ∀ d ∈ cfg.quoteDirs, ∀ p,
    search env.fs cfg.currdir [d] fp = some p → .request (.resolved p) ∈ keys

/-- A request that can come up. -/
def Wanted (env : Sources) (cfg : Config) (keys : Finset Key) :
    Request → Option CString → Prop
  | .resolved p, real =>
    real = some (realOf env.fs cfg.currdir p) ∧ Found env.fs cfg.currdir p ∧
      .request (.resolved p) ∈ keys
  | .next fp, _ => .request (.next fp) ∈ keys
  | _, _ => True

/-- What a call does to the state. -/
structure Step (env : Sources) (cfg : Config) (underway : List ℕ) (st st' : Analyzer) :
    Prop where
  valid : Valid env st'
  memo : Memo env underway st'.graph
  grows : Extends cfg st.graph st'.graph

/-- A call with this result has answered the request. -/
def Answered (env : Sources) (cfg : Config) (underway : List ℕ) (request : Request)
    (st : Analyzer) (result : Option (Except PyExc ℕ × Analyzer)) : Prop :=
  ∃ n st', result = some (.ok n, st') ∧ Step env cfg underway st st' ∧
    st'.graph.masterCache (cfg, .request request) = some n

/-- **What `FindNode` should do**, as long as fewer keys than that are missing. -/
def Answers (env : Sources) (cfg : Config) (keys : Finset Key) (depth : ℕ)
    (find : Request → Option CString → Run ℕ) : Prop :=
  ∀ request real underway st, Wanted env cfg keys request real → Valid env st →
    Memo env underway st.graph → missing cfg keys st.graph < depth →
    ∃ n st', find request real st = some (.ok n, st') ∧ Step env cfg underway st st' ∧
      st'.graph.masterCache (cfg, .request request) = some n

/-- **A node under way**: some of its requests are answered. -/
structure Building (env : Sources) (cfg : Config) (keys : Finset Key) (depth : ℕ)
    (underway : List ℕ) (g₀ : Graph) (n : ℕ) (request : Request) (file : Option (Pair × CString))
    (record : ℕ) (done : List Request) (st : Analyzer) : Prop where
  valid : Valid env st
  memo : Memo env (n :: underway) st.graph
  grows : Extends cfg g₀ st.graph
  new : g₀.nodes.length ≤ n
  own : st.graph.masterCache (cfg, .request request) = some n
  node : ∃ children, st.graph.nodes[n]? = some ⟨file, children, record⟩ ∧
    st.graph.Answered cfg done children
  alone : ∀ k, st.graph.masterCache k = some n →
    k.1 = cfg ∧ (file = none → k.2 = .request request)
  missing : missing cfg keys st.graph < depth

section Children

variable {env : Sources} {cfg : Config} {keys : Finset Key} {depth n record : ℕ} {underway : List ℕ}
  {g₀ : Graph} {request : Request} {file : Option (Pair × CString)} {done : List Request}
  {st : Analyzer} {find : Request → Option CString → Run ℕ}

theorem Building.aside {st' : Analyzer}
    (h : Building env cfg keys depth underway g₀ n request file record done st)
    (haside : Aside env st st') :
    Building env cfg keys depth underway g₀ n request file record done st' := by
  obtain ⟨hvalid, hgraph⟩ := haside
  exact ⟨hvalid, hgraph ▸ h.memo, hgraph ▸ h.grows, h.new, hgraph ▸ h.own, hgraph ▸ h.node,
    hgraph ▸ h.alone, hgraph ▸ h.missing⟩

section Include

variable (h : Building env cfg keys depth underway g₀ n request file record done st)
  (hfind : Answers env cfg keys depth find) {real : Option CString}
include h hfind

/-- One more child. -/
theorem Building.addChild {r : Request} (hwanted : Wanted env cfg keys r real) :
    ∃ child st', find r real st = some (.ok child, st') ∧
      Building env cfg keys depth underway g₀ n request file record (done ++ [r])
        { st' with graph := st'.graph.addChild n child } := by
  obtain ⟨child, st', hrun, hstep, hchild⟩ :=
    hfind r real (n :: underway) st hwanted h.valid h.memo h.missing
  obtain ⟨children, hnode, hdone⟩ := h.node
  have hlt := (List.getElem?_eq_some_iff.mp hnode).1
  refine ⟨child, st', hrun, ?_⟩
  refine
    { valid := hstep.valid.withGraph _
      memo := hstep.memo.addChild List.mem_cons_self child
      grows := (h.grows.trans hstep.grows).addChild h.new child
      new := h.new
      own := hstep.grows.cached _ _ h.own
      node := ⟨children ++ [child], ?_, ?_⟩
      alone := ?_
      missing := Nat.lt_of_le_of_lt (hstep.grows.missing_le keys) h.missing }
  · rw [Graph.getElem?_addChild, if_pos rfl, hstep.grows.nodes _ _ hnode]
    rfl
  · exact List.rel_append (hdone.mono hstep.grows.cached) (.cons hchild .nil)
  · -- A key that leads to the node and was not there before is one of a file.
    intro k hk
    by_cases hcfg : k.1 = cfg
    · refine ⟨hcfg, fun hnone => ?_⟩
      obtain hold | hnew | ⟨node, hnode', hfile⟩ := hstep.grows.fresh k n hk
      · exact (h.alone k hold).2 hnone
      · omega
      · obtain rfl := Option.some.inj ((hstep.grows.nodes _ _ hnode).symm.trans hnode')
        exact absurd hnone hfile
    · exact h.alone k ((hstep.grows.other k hcfg).symm.trans hk)

/-- **A child for an include.** -/
theorem Building.includeChild {r : Request} (hwanted : Wanted env cfg keys r real) :
    ∃ st', includeChild find n record r real st = some (.ok (), st') ∧
      Building env cfg keys depth underway g₀ n request file record (done ++ [r]) st' := by
  obtain ⟨child, st', hrun, hbuilding⟩ := h.addChild hfind hwanted
  refine ⟨_, ?_, hbuilding⟩
  rw [IncludeServer.includeChild, bind_of_ok hrun, IncludeServer.addChild,
    modify_bind, get_bind]
  split
  · rfl
  · -- The child depends on nothing.
    have hsupport := hbuilding.valid.support
    rw [hsupport.supportOf]
    exact updateSupport_empty record

/-- A loop over includes of one kind. -/
theorem Building.includeChildren (make : CString → Request) {fps : List CString}
    (hwanted : ∀ fp ∈ fps, Wanted env cfg keys (make fp) none) :
    ∃ st', Prog.forEach (fun fp => IncludeServer.includeChild find n record (make fp) none) fps st =
        some (.ok (), st') ∧
      Building env cfg keys depth underway g₀ n request file record (done ++ fps.map make) st' := by
  refine forEach_returns
    (I := fun fps st' => Building env cfg keys depth underway g₀ n request file record
      (done ++ fps.map make) st') (fun fps fp hfp st₁ h1 => ?_) ?_
  · obtain ⟨st', hrun, hbuilding⟩ := h1.includeChild hfind (hwanted fp hfp)
    refine ⟨st', hrun, ?_⟩
    rw [map_append, ← append_assoc]
    exact hbuilding
  · rw [map_nil, append_nil]
    exact h

end Include

/-- The children of a dummy node. -/
theorem Building.nextChildren {fp : CString} (hcovers : Covers env cfg keys)
    (h : Building env cfg keys depth underway g₀ n request file record [] st)
    (hfind : Answers env cfg keys depth find) (hkey : .request (.next fp) ∈ keys) :
    ∃ st', Prog.forEach (nextChild env cfg find n fp) cfg.quoteDirs st = some (.ok (), st') ∧
      Building env cfg keys depth underway g₀ n request file record (nextRequests env cfg fp)
        st' := by
  refine forEach_returns
    (I := fun dirs st' => Building env cfg keys depth underway g₀ n request file record
      (dirs.filterMap fun d => (search env.fs cfg.currdir [d] fp).map Request.resolved) st')
    (fun dirs d hd st₁ h1 => ?_) h
  obtain ⟨st₂, hresolve, haside⟩ := resolve_run h1.valid cfg fp none [d]
  replace hresolve : resolve env cfg fp none [d] st₁ =
      some (.ok ((search env.fs cfg.currdir [d] fp).map fun p =>
        (p, realOf env.fs cfg.currdir p)), st₂) := hresolve
  rw [filterMap_append, nextChild, bind_of_ok hresolve]
  cases hsearch : search env.fs cfg.currdir [d] fp with
  | none =>
    refine ⟨st₂, rfl, ?_⟩
    rw [filterMap_cons_none (by rw [hsearch]; rfl), filterMap_nil, append_nil]
    exact h1.aside haside
  | some p =>
    have hwanted : Wanted env cfg keys (.resolved p) (some (realOf env.fs cfg.currdir p)) :=
      ⟨rfl, found_of_search hsearch, hcovers.resolved fp hkey d hd p hsearch⟩
    obtain ⟨child, st₃, hrun, hbuilding⟩ := (h1.aside haside).addChild hfind hwanted
    refine ⟨{ st₃ with graph := st₃.graph.addChild n child }, ?_, ?_⟩
    · exact bind_of_ok hrun
    · rw [filterMap_cons_some (by rw [hsearch]; rfl), filterMap_nil]
      exact hbuilding

/-- **The children of the node of a file.** -/
theorem Building.fileChildren {p : Pair} {real : CString} (hplain : env.Plain)
    (hcovers : Covers env cfg keys)
    (h : Building env cfg keys depth underway g₀ n request (some (p, real)) record [] st)
    (hfind : Answers env cfg keys depth find) (hfound : Found env.fs cfg.currdir p)
    (hreal : realOf env.fs cfg.currdir p = real) :
    ∃ st', fileChildren env cfg find n record real (dirOf p) st = some (.ok (), st') ∧
      Building env cfg keys depth underway g₀ n request (some (p, real)) record
        (requestsOf env cfg p) st' := by
  obtain ⟨includes, hparse, hexpr⟩ : ∃ includes, (env.parse real).result = .ok includes ∧
      includes.expr = [] := by
    obtain ⟨loc, -, hentry, -, hrender, -⟩ := hfound.places
    rw [← hreal, hrender]
    exact hplain loc hentry
  have hincludes : env.includes (realOf env.fs cfg.currdir p) = includes := by
    rw [Sources.includes, hreal, hparse]
  -- The record is valid, and the file is parsed.
  have hvalid : { st with supportMaster := st.supportMaster.setValid record } = st := by
    rw [h.valid.support.setValid]
  obtain ⟨st₁, hrun1, haside⟩ := includesOf_run h.valid hparse
  -- The loops, one after the other.
  obtain ⟨st₂, hrun2, h2⟩ := (h.aside haside).includeChildren hfind (Request.quote · (dirOf p))
    (fun fp (_ : fp ∈ includes.quote) => trivial)
  obtain ⟨st₃, hrun3, h3⟩ := h2.includeChildren hfind Request.angle
    (fun fp (_ : fp ∈ includes.angle) => trivial)
  obtain ⟨st₄, hrun4, h4⟩ := h3.includeChildren hfind Request.next
    (fun fp (hfp : fp ∈ includes.next) => hcovers.next p hfound fp (hincludes ▸ hfp))
  refine ⟨st₄, ?_, ?_⟩
  · rw [IncludeServer.fileChildren, setValid, modify_bind, hvalid, bind_of_ok hrun1,
      bind_of_ok hrun2, bind_of_ok hrun3, hexpr]
    exact hrun4
  · rw [requestsOf, hincludes]
    exact h4

/-- **A node that is done.** All keys that lead to it ask for it. -/
theorem Building.finish {st₀ : Analyzer}
    (h : Building env cfg keys depth underway st₀.graph n request file record done st)
    (hdone : ∀ children, due env cfg (.request request) ⟨file, children, record⟩ = done) :
    Step env cfg underway st₀ st := by
  obtain ⟨children, hnode, hanswered⟩ := h.node
  refine ⟨h.valid, h.memo.complete hnode fun cfg' key hkey => ?_, h.grows⟩
  obtain ⟨rfl, halone⟩ := h.alone (cfg', key) hkey
  have hdue : due env cfg' key ⟨file, children, record⟩ = done := by
    rw [← hdone children]
    cases file with
    | none =>
      replace halone : key = .request request := halone rfl
      rw [halone]
    | some pair => rfl
  rw [hdue]
  exact hanswered

end Children

/-! ### One call -/

section Call

variable {env : Sources} {cfg : Config} {keys : Finset Key} {depth record : ℕ} {underway : List ℕ}
  {request : Request} {real : Option CString} {st st' : Analyzer}
  {find : Request → Option CString → Run ℕ} {g : Graph} {p : Pair}

/-- The file of a request that can come up. -/
theorem resolveRequest_run (h : Valid env st) (hwanted : Wanted env cfg keys request real) :
    ∃ st', resolveRequest env cfg request real st = some (.ok ((request.target env cfg).map
        fun p => (p, realOf env.fs cfg.currdir p)), st') ∧ Aside env st st' := by
  cases request with
  | resolved p =>
    obtain ⟨rfl, -, -⟩ := hwanted
    exact ⟨st, rfl, h, rfl⟩
  | quote fp dir => exact resolve_run h cfg fp (some dir) cfg.quoteDirs
  | angle fp => exact resolve_run h cfg fp none cfg.angleDirs
  | next fp => exact ⟨st, rfl, h, rfl⟩

theorem Wanted.found (hwanted : Wanted env cfg keys request real)
    (htarget : request.target env cfg = some p) : Found env.fs cfg.currdir p := by
  cases request with
  | resolved q =>
    obtain rfl := Option.some.inj htarget
    exact hwanted.2.1
  | quote fp dir => exact found_of_search htarget
  | angle fp => exact found_of_search htarget
  | next fp => cases htarget

/-- The node that a call starts with. -/
def startNode (env : Sources) (cfg : Config) (request : Request) (record : ℕ) : Node :=
  ⟨(request.target env cfg).map fun p => (p, realOf env.fs cfg.currdir p), [], record⟩

theorem startNode_stands (hwanted : Wanted env cfg keys request real) :
    Stands env cfg (.request request) (startNode env cfg request record) := by
  rw [Stands, startNode]
  cases htarget : request.target env cfg with
  | none => rfl
  | some p => exact ⟨p, rfl, hwanted.found htarget, rfl, rfl⟩

/-- The graph with that node. -/
def startGraph (env : Sources) (cfg : Config) (request : Request) (record : ℕ) (g : Graph) :
    Graph :=
  (g.add (startNode env cfg request record)).set cfg (.request request) g.nodes.length

theorem startGraph_extends (env : Sources) (record : ℕ)
    (hnone : g.masterCache (cfg, .request request) = none) :
    Extends cfg g (startGraph env cfg request record g) :=
  (extends_add cfg g _).set hnone (.inl (Nat.le_refl _))

theorem startGraph_memo (hwanted : Wanted env cfg keys request real)
    (hmemo : Memo env underway g) (hnone : g.masterCache (cfg, .request request) = none) :
    Memo env (g.nodes.length :: underway) (startGraph env cfg request record g) := by
  refine Memo.set ((hmemo.add _).mono fun n hn => mem_cons_of_mem _ hn) hnone
    (g.getElem?_add _) (startNode_stands hwanted) fun hn => ?_
  exact absurd mem_cons_self hn

/-- What comes before the children. -/
theorem buildNode_start (h : Valid env st) (cfg : Config)
    (find : Request → Option CString → Run ℕ) (request : Request) (record : ℕ) :
    ∃ st', buildNode env cfg find request (startNode env cfg request record).file record st =
        fillNode env cfg find request (startNode env cfg request record).file record
          st.graph.nodes.length st' ∧
      Valid env st' ∧ st'.graph = startGraph env cfg request record st.graph := by
  obtain ⟨st₁, hrun, haside⟩ := mirror_run h cfg (startNode env cfg request record).file
  refine ⟨{ st₁ with graph := startGraph env cfg request record st₁.graph }, ?_,
    haside.valid.withGraph _, ?_⟩
  · rw [buildNode, bind_of_ok hrun, ← haside.graph]
    rfl
  · exact congrArg (startGraph env cfg request record) haside.graph

/-- The node is new, so that one key leads to it. -/
theorem startGraph_building (hwanted : Wanted env cfg keys request real)
    (hvalid : Valid env st') (hgraph : st'.graph = startGraph env cfg request record st.graph)
    (hmemo : Memo env underway st.graph)
    (hnone : st.graph.masterCache (cfg, .request request) = none)
    (hmissing : missing cfg keys st'.graph < depth) :
    Building env cfg keys depth underway st.graph st.graph.nodes.length request
      (startNode env cfg request record).file record [] st' where
  valid := hvalid
  memo := hgraph ▸ startGraph_memo hwanted hmemo hnone
  grows := hgraph ▸ startGraph_extends env record hnone
  new := Nat.le_refl _
  own := hgraph ▸ Graph.masterCache_set _ _ _ _
  node := ⟨[], hgraph ▸ st.graph.getElem?_add _, .nil⟩
  alone k hk := by
    rw [hgraph, startGraph] at hk
    by_cases heq : k = (cfg, .request request)
    · exact heq ▸ ⟨rfl, fun _ => rfl⟩
    · rw [Graph.masterCache_set_of_ne heq] at hk
      exact absurd (hmemo.lt hk) (Nat.lt_irrefl _)
  missing := hmissing

/-- A request whose key is one of those that are missing. -/
theorem missing_startGraph (env : Sources) (record : ℕ) (hkey : .request request ∈ keys)
    (hnone : g.masterCache (cfg, .request request) = none)
    (hmissing : missing cfg keys g < depth + 1) :
    missing cfg keys (startGraph env cfg request record g) < depth := by
  have hlt := (startGraph_extends env record hnone).missing_lt hkey hnone
    (Graph.masterCache_set _ _ _ _)
  omega

/-- **Another name of a file that is known**: the request gets the node that is there. -/
theorem alias_step {n' : ℕ} (hvalid : Valid env st')
    (hgraph : st'.graph = startGraph env cfg request record st.graph)
    (hmemo : Memo env underway st.graph)
    (hnone : st.graph.masterCache (cfg, .request request) = none)
    (htarget : request.target env cfg = some p)
    (hreal : st.graph.masterCache
      (cfg, .real (realOf env.fs cfg.currdir p) (dirRealOf env.fs cfg.currdir p)) = some n') :
    Step env cfg underway st
      { st' with graph := st'.graph.set cfg (.request request) n' } := by
  obtain ⟨node, hnode, ⟨q, hfile, hq⟩, hdone⟩ := hmemo _ _ _ hreal
  have hset : st'.graph.set cfg (.request request) n' =
      (st.graph.add (startNode env cfg request record)).set cfg (.request request) n' := by
    rw [hgraph, startGraph, Graph.set_set]
  have hnode' := (extends_add cfg st.graph (startNode env cfg request record)).nodes _ _ hnode
  refine ⟨hvalid.withGraph _, ?_, ?_⟩
  · change Memo env underway (st'.graph.set cfg (.request request) n')
    rw [hset]
    refine (hmemo.add _).set hnone hnode' ?_ fun hn => ?_
    · rw [Stands, htarget]
      exact ⟨q, hfile, hq⟩
    · have hanswered := hdone hn
      rw [due_of_file hfile] at hanswered ⊢
      exact hanswered
  · change Extends cfg st.graph (st'.graph.set cfg (.request request) n')
    rw [hset]
    refine (extends_add cfg _ _).set hnone (.inr ⟨node, hnode', ?_⟩)
    rw [hfile]
    exact Option.some_ne_none _

/-- A node for a file, which is then known by its real paths. -/
theorem Building.setReal {n : ℕ} {real dirReal : CString}
    (h : Building env cfg keys (depth + 1) underway st.graph n request (some (p, real)) record
      [] st')
    (hat : (⟨some (p, real), [], record⟩ : Node).IsAt env cfg real dirReal)
    (hnone : st'.graph.masterCache (cfg, .real real dirReal) = none)
    (hkey : .real real dirReal ∈ keys) :
    Building env cfg keys depth underway st.graph n request (some (p, real)) record []
      { st' with graph := st'.graph.set cfg (.real real dirReal) n } := by
  obtain ⟨children, hnode, hdone⟩ := h.node
  have hgrows : Extends cfg st.graph (st'.graph.set cfg (.real real dirReal) n) :=
    h.grows.set hnone (.inl h.new)
  refine ⟨h.valid.withGraph _, ?_, hgrows, h.new, Graph.cached_set hnone n _ _ h.own,
    ⟨children, hnode, hdone.mono (Graph.cached_set hnone n)⟩, ?_, ?_⟩
  · refine h.memo.set hnone hnode ?_ fun hn => absurd mem_cons_self hn
    exact hat
  · intro k hk
    refine ⟨?_, fun hfile => nomatch hfile⟩
    by_contra hcfg
    rw [Graph.masterCache_set_of_ne (fun heq => hcfg (congrArg Prod.fst heq))] at hk
    exact hcfg (h.alone k hk).1
  · have hset : Extends cfg st'.graph (st'.graph.set cfg (.real real dirReal) n) :=
      (Extends.refl cfg st'.graph).set hnone (.inr ⟨_, hnode, Option.some_ne_none _⟩)
    have hlt := hset.missing_lt hkey hnone (Graph.masterCache_set _ _ _ n)
    exact Nat.lt_of_lt_of_le hlt (Nat.le_of_lt_succ h.missing)

theorem realNode_known {n' : ℕ} {real dirReal : CString} (record n : ℕ) (hvalid : Valid env st)
    (hmode : ∀ p, request ≠ .resolved p)
    (h : st.graph.masterCache (cfg, .real real dirReal) = some n') :
    realNode cfg request real dirReal record n st =
      some (.ok (some n'), { st with graph := st.graph.set cfg (.request request) n' }) := by
  rw [realNode, get_bind, h, hvalid.support.isValid]
  · rfl
  · exact hmode

theorem realNode_unknown {n : ℕ} {real dirReal : CString} (hmode : ∀ p, request ≠ .resolved p)
    (h : st.graph.masterCache (cfg, .real real dirReal) = none) :
    realNode cfg request real dirReal record n st =
      some (.ok none, { st with graph := st.graph.set cfg (.real real dirReal) n }) := by
  rw [realNode, get_bind, h]
  · rfl
  · exact hmode

section Fill

variable (hplain : env.Plain) (hcovers : Covers env cfg keys)
  (hfind : Answers env cfg keys depth find) (hwanted : Wanted env cfg keys request real)
  (hgraph : st'.graph = startGraph env cfg request record st.graph)
  (hmemo : Memo env underway st.graph)
  (hnone : st.graph.masterCache (cfg, .request request) = none)
include hplain hcovers hfind hwanted hgraph hmemo hnone

/-- What is done about a new node for a file. -/
theorem fillNode_file {p : Pair} (htarget : request.target env cfg = some p)
    (h : Building env cfg keys (depth + 1) underway st.graph st.graph.nodes.length request
      (some (p, realOf env.fs cfg.currdir p)) record [] st')
    (hmissing : missing cfg keys st.graph < depth + 1) :
    Answered env cfg underway request st (fillNode env cfg find request
      (some (p, realOf env.fs cfg.currdir p)) record st.graph.nodes.length st') := by
  have hfound := hwanted.found htarget
  obtain ⟨st₁, hdir, haside⟩ := lookupDirname_run h.valid cfg hfound.1
  have hgraph1 := haside.graph.trans hgraph
  -- The children, once it is settled that the node is needed.
  have hchildren : ∀ st₂, realNode cfg request (realOf env.fs cfg.currdir p)
        (dirRealOf env.fs cfg.currdir p) record st.graph.nodes.length st₁ =
        some (.ok none, st₂) →
      Building env cfg keys depth underway st.graph st.graph.nodes.length request
        (some (p, realOf env.fs cfg.currdir p)) record [] st₂ →
      Answered env cfg underway request st (fillNode env cfg find request
        (some (p, realOf env.fs cfg.currdir p)) record st.graph.nodes.length st') := by
    intro st₂ hrun2 h2
    obtain ⟨st₃, hrun3, h3⟩ := h2.fileChildren hplain hcovers hfind hfound rfl
    refine ⟨_, st₃, ?_, h3.finish fun _ => rfl, h3.own⟩
    cases request <;>
      exact (bind_of_ok hdir).trans ((bind_of_ok hrun2).trans (bind_of_ok hrun3))
  by_cases hmode : ∃ q, request = .resolved q
  · obtain ⟨q, rfl⟩ := hmode
    refine hchildren st₁ rfl ?_
    have hlt := missing_startGraph env record hwanted.2.2 hnone hmissing
    exact { h.aside haside with missing := hgraph1 ▸ hlt }
  · replace hmode : ∀ q, request ≠ .resolved q := fun q hq => hmode ⟨q, hq⟩
    -- A key of real paths is not that of a request.
    have hreal : st₁.graph.masterCache
          (cfg, .real (realOf env.fs cfg.currdir p) (dirRealOf env.fs cfg.currdir p)) =
        st.graph.masterCache
          (cfg, .real (realOf env.fs cfg.currdir p) (dirRealOf env.fs cfg.currdir p)) := by
      rw [hgraph1, startGraph, Graph.masterCache_set_of_ne (by simp)]
      rfl
    cases hknown : st.graph.masterCache
        (cfg, .real (realOf env.fs cfg.currdir p) (dirRealOf env.fs cfg.currdir p)) with
    | some n' =>
      have hrun := realNode_known record st.graph.nodes.length haside.valid hmode
        (hreal.trans hknown)
      refine ⟨n', _, ?_, alias_step haside.valid hgraph1 hmemo hnone htarget hknown,
        Graph.masterCache_set _ _ _ _⟩
      cases request <;> exact (bind_of_ok hdir).trans (bind_of_ok hrun)
    | none =>
      refine hchildren _ (realNode_unknown hmode (hreal.trans hknown)) ?_
      exact (h.aside haside).setReal ⟨p, rfl, hfound, rfl, rfl⟩ (hreal.trans hknown)
        (hcovers.real p hfound)

/-- What is done about a new node. -/
theorem fillNode_run (hvalid : Valid env st')
    (hmissing : missing cfg keys st.graph < depth + 1) :
    Answered env cfg underway request st (fillNode env cfg find request
      (startNode env cfg request record).file record st.graph.nodes.length st') := by
  have hmissing' : missing cfg keys st'.graph < depth + 1 := by
    have hle := (startGraph_extends env record hnone).missing_le keys
    rw [← hgraph] at hle
    omega
  have h := startGraph_building hwanted hvalid hgraph hmemo hnone hmissing'
  rw [startNode] at h ⊢
  cases htarget : request.target env cfg with
  | some p =>
    rw [htarget] at h
    exact fillNode_file hplain hcovers hfind hwanted hgraph hmemo hnone htarget h hmissing
  | none =>
    rw [htarget] at h
    cases request with
    | resolved p => cases htarget
    | quote fp dir => exact ⟨_, st', rfl, h.finish fun _ => rfl, h.own⟩
    | angle fp => exact ⟨_, st', rfl, h.finish fun _ => rfl, h.own⟩
    | next fp =>
      have hlt := missing_startGraph env record hwanted hnone hmissing
      have hless : Building env cfg keys depth underway st.graph st.graph.nodes.length (.next fp)
          none record [] st' := { h with missing := hgraph ▸ hlt }
      obtain ⟨st₁, hrun, h1⟩ := hless.nextChildren hcovers hfind hwanted
      exact ⟨_, st₁, bind_of_ok hrun, h1.finish fun _ => rfl, h1.own⟩

end Fill

/-- The body does what it should if the calls in it do. -/
theorem findNodeBody_answers (hplain : env.Plain) (hcovers : Covers env cfg keys)
    (hfind : Answers env cfg keys depth find) :
    Answers env cfg keys (depth + 1) (findNodeBody env cfg find) := by
  intro request real underway st hwanted hvalid hmemo hmissing
  cases hcached : st.graph.masterCache (cfg, .request request) with
  | some n =>
    obtain ⟨node, hnode, -⟩ := hmemo _ _ _ hcached
    refine ⟨n, st, ?_, ⟨hvalid, hmemo, Extends.refl _ _⟩, hcached⟩
    rw [findNodeBody, get_bind, hcached, Option.bind_some, hnode]
    exact congrFun (congrArg Prog.run (if_pos (hvalid.support.isValid _))) st
  | none =>
    -- A new record changes nothing, and then the file is looked for.
    have hvalid0 : Valid env { st with supportMaster := st.supportMaster.addRecord } :=
      ⟨hvalid.stat, hvalid.dirname, hvalid.file, hvalid.support.addRecord⟩
    obtain ⟨st₁, hresolve, haside⟩ := resolveRequest_run hvalid0 hwanted
    replace haside : Aside env st st₁ := ⟨haside.valid, haside.graph⟩
    obtain ⟨st₂, hstart, hvalid2, hgraph2⟩ := buildNode_start haside.valid cfg find request
      st.supportMaster.records.length
    rw [haside.graph] at hstart hgraph2
    have hbody : findNodeBody env cfg find request real st =
        fillNode env cfg find request
          (startNode env cfg request st.supportMaster.records.length).file
          st.supportMaster.records.length st.graph.nodes.length st₂ := by
      rw [← hstart, findNodeBody, get_bind, hcached]
      exact bind_of_ok hresolve
    rw [hbody]
    exact fillNode_run hplain hcovers hfind hwanted hgraph2 hmemo hcached hvalid2 hmissing

/-- **`FindNode` returns**, and it leaves a cache that holds what it should. -/
theorem findNode_answers (hplain : env.Plain) (hcovers : Covers env cfg keys) (depth : ℕ) :
    Answers env cfg keys depth (findNode env cfg depth) := by
  induction depth with
  | zero =>
    intro request real underway st _ _ _ hmissing
    exact absurd hmissing (Nat.not_lt_zero _)
  | succ depth ih => exact findNodeBody_answers hplain hcovers ih

end Call

end Distcc.IncludeServer
