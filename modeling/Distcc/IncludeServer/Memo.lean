import Distcc.IncludeServer.Reach
import Mathlib.Data.Finset.Card

/-!
# What the node cache holds

A node that the cache holds stands for the file that its key asks for, by whatever name
(`Stands`), and its children are the nodes of the requests that are
due for it, in order (`due`). This is true of all nodes but those
whose children are still being looked for: they are under way, and
`Memo` says for which nodes.

The graph only grows (`Extends`): what was in the cache stays there,
and nodes that were there are not changed by the search for others. So a node that is
complete stays complete. There are finitely many keys under which a search could go on,
and each search that goes on takes one of them (`Extends.missing_lt`).
-/

namespace Distcc.IncludeServer

/-! ### Requests -/

/-- The file that a request asks for. There is none for `#include_next`, which may ask for
many. -/
def Request.target (env : Sources) (cfg : Config) : Request → Option Pair
  | .resolved p => some p
  | .quote fp dir => search env.fs cfg.currdir (dir :: cfg.quoteDirs) fp
  | .angle fp => search env.fs cfg.currdir cfg.angleDirs fp
  | .next _ => none

/-- The requests of a file with a name. -/
def requestsOf (env : Sources) (cfg : Config) (p : Pair) : List Request :=
  let includes := env.includes (realOf env.fs cfg.currdir p)
  includes.quote.map (Request.quote · (dirOf p)) ++ includes.angle.map Request.angle ++
    includes.next.map Request.next

/-- The requests of a dummy node. -/
def nextRequests (env : Sources) (cfg : Config) (fp : CString) : List Request :=
  cfg.quoteDirs.filterMap fun d => (search env.fs cfg.currdir [d] fp).map Request.resolved

/-- The requests that are due for a node under a key. -/
def due (env : Sources) (cfg : Config) (key : Key) (node : Node) : List Request :=
  match node.file, key with
  | some (q, _), _ => requestsOf env cfg q
  | none, .request (.next fp) => nextRequests env cfg fp
  | none, _ => []

/-! ### Nodes -/

/-- The node is that of a file with these real paths. -/
def Node.IsAt (env : Sources) (cfg : Config) (node : Node) (real dirReal : CString) : Prop :=
  ∃ q, node.file = some (q, real) ∧ Found env.fs cfg.currdir q ∧
    realOf env.fs cfg.currdir q = real ∧ dirRealOf env.fs cfg.currdir q = dirReal

/-- The node is one for the key. -/
def Stands (env : Sources) (cfg : Config) : Key → Node → Prop
  | .request request, node =>
    match request.target env cfg with
    | none => node.file = none
    | some p => node.IsAt env cfg (realOf env.fs cfg.currdir p) (dirRealOf env.fs cfg.currdir p)
  | .real real dirReal, node => node.IsAt env cfg real dirReal

/-- The nodes are those of the requests. -/
def Graph.Answered (g : Graph) (cfg : Config) (requests : List Request) (ns : List ℕ) : Prop :=
  List.Forall₂ (fun request n => g.masterCache (cfg, .request request) = some n) requests ns

/-- **What the cache holds**, with some nodes under way. -/
def Memo (env : Sources) (underway : List ℕ) (g : Graph) : Prop :=
  ∀ cfg key n, g.masterCache (cfg, key) = some n →
    ∃ node, g.nodes[n]? = some node ∧ Stands env cfg key node ∧
      (n ∉ underway → g.Answered cfg (due env cfg key node) node.children)

/-- **What a search may do** to the graph. A key that is new has a new node, or that of a
file. -/
structure Extends (cfg : Config) (g g' : Graph) : Prop where
  cached : ∀ k n, g.masterCache k = some n → g'.masterCache k = some n
  nodes : ∀ (n : ℕ) node, g.nodes[n]? = some node → g'.nodes[n]? = some node
  other : ∀ k, k.1 ≠ cfg → g'.masterCache k = g.masterCache k
  fresh : ∀ k n, g'.masterCache k = some n → g.masterCache k = some n ∨ g.nodes.length ≤ n ∨
    ∃ node, g'.nodes[n]? = some node ∧ node.file ≠ none

section Graphs

variable {env : Sources} {cfg : Config} {underway : List ℕ} {g g' g'' g₀ : Graph} {key : Key}
  {n child : ℕ} {node : Node} {k : Config × Key}

/-- What is due for the node of a file does not depend on the key. -/
theorem due_of_file {q : Pair} {real : CString} (h : node.file = some (q, real)) :
    due env cfg key node = requestsOf env cfg q := by
  unfold due
  rw [h]

theorem Memo.lt (h : Memo env underway g) (hk : g.masterCache k = some n) : n < g.nodes.length := by
  obtain ⟨node, hnode, -⟩ := h k.1 k.2 n hk
  exact (List.getElem?_eq_some_iff.mp hnode).1

theorem memo_empty : Memo env underway {} := by
  intro cfg key n h
  cases h

/-! ### Growing -/

theorem Extends.refl (cfg : Config) (g : Graph) : Extends cfg g g where
  cached _ _ h := h
  nodes _ _ h := h
  other _ _ := rfl
  fresh _ _ h := Or.inl h

theorem Extends.length_le (h : Extends cfg g g') : g.nodes.length ≤ g'.nodes.length := by
  by_contra hlt
  obtain ⟨node, hnode⟩ : ∃ node, g.nodes[g'.nodes.length]? = some node :=
    ⟨_, List.getElem?_eq_getElem (Nat.lt_of_not_le hlt)⟩
  have hnone : g'.nodes[g'.nodes.length]? = none := List.getElem?_eq_none (Nat.le_refl _)
  rw [h.nodes _ _ hnode] at hnone
  cases hnone

theorem Extends.trans (h : Extends cfg g g') (h' : Extends cfg g' g'') : Extends cfg g g'' where
  cached k n hk := h'.cached k n (h.cached k n hk)
  nodes n node hn := h'.nodes n node (h.nodes n node hn)
  other k hk := (h'.other k hk).trans (h.other k hk)
  fresh k n hk := by
    obtain hold | hnew | hfile := h'.fresh k n hk
    · obtain hold | hnew | ⟨node, hnode, hfile⟩ := h.fresh k n hold
      · exact Or.inl hold
      · exact Or.inr (Or.inl hnew)
      · exact Or.inr (Or.inr ⟨node, h'.nodes n node hnode, hfile⟩)
    · exact Or.inr (Or.inl (Nat.le_trans h.length_le hnew))
    · exact Or.inr (Or.inr hfile)

/-- What is answered stays answered. -/
theorem Graph.Answered.mono {requests : List Request} {ns : List ℕ}
    (h : g.Answered cfg requests ns)
    (hcached : ∀ k n, g.masterCache k = some n → g'.masterCache k = some n) :
    g'.Answered cfg requests ns :=
  h.imp fun _ _ hk => hcached _ _ hk

/-! ### One step -/

theorem Graph.getElem?_add (g : Graph) (node : Node) :
    (g.add node).nodes[g.nodes.length]? = some node :=
  List.getElem?_concat_length

theorem extends_add (cfg : Config) (g : Graph) (node : Node) : Extends cfg g (g.add node) where
  cached _ _ h := h
  nodes _ _ h := (List.getElem?_append_left (List.getElem?_eq_some_iff.mp h).1).trans h
  other _ _ := rfl
  fresh _ _ h := Or.inl h

theorem Memo.add (h : Memo env underway g) (node : Node) : Memo env underway (g.add node) := by
  intro cfg key n hk
  obtain ⟨node', hnode', hstands, hdone⟩ := h cfg key n hk
  exact ⟨node', (extends_add cfg g node).nodes n node' hnode', hstands, hdone⟩

theorem Graph.set_set (g : Graph) (cfg : Config) (key : Key) (n n' : ℕ) :
    (g.set cfg key n).set cfg key n' = g.set cfg key n' := by
  rw [Graph.set, Graph.set, Graph.set]
  simp only [Function.update_idem]

theorem Graph.masterCache_set (g : Graph) (cfg : Config) (key : Key) (n : ℕ) :
    (g.set cfg key n).masterCache (cfg, key) = some n :=
  Function.update_self ..

theorem Graph.masterCache_set_of_ne (hk : k ≠ (cfg, key)) (n : ℕ) :
    (g.set cfg key n).masterCache k = g.masterCache k :=
  Function.update_of_ne hk ..

theorem Graph.cached_set (hkey : g.masterCache (cfg, key) = none) (n : ℕ) :
    ∀ k m, g.masterCache k = some m → (g.set cfg key n).masterCache k = some m := by
  intro k m hk
  rw [masterCache_set_of_ne, hk]
  rintro rfl
  rw [hkey] at hk
  cases hk

/-- A key that had no node gets one that stands for it. -/
theorem Memo.set (h : Memo env underway g) (hkey : g.masterCache (cfg, key) = none)
    (hnode : g.nodes[n]? = some node) (hstands : Stands env cfg key node)
    (hdone : n ∉ underway → g.Answered cfg (due env cfg key node) node.children) :
    Memo env underway (g.set cfg key n) := by
  intro cfg' key' n' hk
  have hcached := Graph.cached_set hkey n
  by_cases heq : (cfg', key') = (cfg, key)
  · obtain ⟨rfl, rfl⟩ := Prod.mk.inj heq
    rw [Graph.masterCache_set] at hk
    obtain rfl := Option.some.inj hk
    exact ⟨node, hnode, hstands, fun hn => (hdone hn).mono hcached⟩
  · rw [Graph.masterCache_set_of_ne heq] at hk
    obtain ⟨node', hnode', hstands', hdone'⟩ := h cfg' key' n' hk
    exact ⟨node', hnode', hstands', fun hn => (hdone' hn).mono hcached⟩

theorem Extends.set (h : Extends cfg g₀ g) (hkey : g.masterCache (cfg, key) = none)
    (hn : g₀.nodes.length ≤ n ∨ ∃ node, g.nodes[n]? = some node ∧ node.file ≠ none) :
    Extends cfg g₀ (g.set cfg key n) where
  cached k m hk := Graph.cached_set hkey n k m (h.cached k m hk)
  nodes := h.nodes
  other k hk := by
    rw [Graph.masterCache_set_of_ne (fun heq => hk (congrArg Prod.fst heq))]
    exact h.other k hk
  fresh k m hk := by
    by_cases heq : k = (cfg, key)
    · subst heq
      rw [Graph.masterCache_set] at hk
      obtain rfl := Option.some.inj hk
      exact Or.inr hn
    · rw [Graph.masterCache_set_of_ne heq] at hk
      exact h.fresh k m hk

theorem Graph.getElem?_addChild (g : Graph) (n child m : ℕ) :
    (g.addChild n child).nodes[m]? =
      if n = m then g.nodes[m]?.map fun node => { node with children := node.children ++ [child] }
      else g.nodes[m]? := by
  rw [addChild, List.getElem?_modify]
  split
  · rfl
  · exact Option.map_id'

/-- A node under way gets a child. -/
theorem Memo.addChild (h : Memo env underway g) (hn : n ∈ underway) (child : ℕ) :
    Memo env underway (g.addChild n child) := by
  intro cfg key m hk
  obtain ⟨node, hnode, hstands, hdone⟩ := h cfg key m hk
  by_cases heq : n = m
  · subst heq
    refine ⟨{ node with children := node.children ++ [child] }, ?_, ?_, fun hnot =>
      absurd hn hnot⟩
    · rw [Graph.getElem?_addChild, if_pos rfl, hnode]
      rfl
    · cases key <;> exact hstands
  · exact ⟨node, by rw [Graph.getElem?_addChild, if_neg heq, hnode], hstands, hdone⟩

theorem Extends.addChild (h : Extends cfg g₀ g) (hn : g₀.nodes.length ≤ n) (child : ℕ) :
    Extends cfg g₀ (g.addChild n child) where
  cached := h.cached
  nodes m node hm := by
    have hlt := (List.getElem?_eq_some_iff.mp hm).1
    rw [Graph.getElem?_addChild, if_neg (by omega)]
    exact h.nodes m node hm
  other := h.other
  fresh k m hk := by
    obtain hold | hnew | ⟨node, hnode, hfile⟩ := h.fresh k m hk
    · exact Or.inl hold
    · exact Or.inr (Or.inl hnew)
    · by_cases heq : n = m
      · exact Or.inr (Or.inl (heq ▸ hn))
      · refine Or.inr (Or.inr ⟨node, ?_, hfile⟩)
        rw [Graph.getElem?_addChild, if_neg heq, hnode]

/-- **A node is no longer under way** once its children are there, for all its keys. -/
theorem Memo.complete (h : Memo env (n :: underway) g) (hnode : g.nodes[n]? = some node)
    (hdone : ∀ cfg key, g.masterCache (cfg, key) = some n →
      g.Answered cfg (due env cfg key node) node.children) :
    Memo env underway g := by
  intro cfg key m hk
  obtain ⟨node', hnode', hstands, hdone'⟩ := h cfg key m hk
  refine ⟨node', hnode', hstands, fun hm => ?_⟩
  by_cases heq : m = n
  · subst heq
    obtain rfl := Option.some.inj (hnode.symm.trans hnode')
    exact hdone cfg key hk
  · refine hdone' ?_
    rw [List.mem_cons, not_or]
    exact ⟨heq, hm⟩

theorem Memo.mono {underway' : List ℕ} (h : Memo env underway g)
    (hsub : ∀ n ∈ underway, n ∈ underway') : Memo env underway' g := by
  intro cfg key n hk
  obtain ⟨node, hnode, hstands, hdone⟩ := h cfg key n hk
  exact ⟨node, hnode, hstands, fun hn => hdone fun hmem => hn (hsub n hmem)⟩

/-! ### How long a search can go on -/

/-- How many of the keys have no node yet. -/
def missing (cfg : Config) (keys : Finset Key) (g : Graph) : ℕ :=
  (keys.filter fun key => g.masterCache (cfg, key) = none).card

variable (h : Extends cfg g g')
include h

theorem Extends.missing_subset (keys : Finset Key) :
    (keys.filter fun key => g'.masterCache (cfg, key) = none) ⊆
      keys.filter fun key => g.masterCache (cfg, key) = none := by
  intro key hkey
  rw [Finset.mem_filter] at hkey ⊢
  refine ⟨hkey.1, ?_⟩
  cases hold : g.masterCache (cfg, key) with
  | none => rfl
  | some n =>
    have hnew := h.cached _ _ hold
    rw [hkey.2] at hnew
    cases hnew

theorem Extends.missing_le (keys : Finset Key) : missing cfg keys g' ≤ missing cfg keys g :=
  Finset.card_le_card (h.missing_subset keys)

/-- **A key that gets a node** is missing no more. -/
theorem Extends.missing_lt {keys : Finset Key} (hkey : key ∈ keys)
    (hnone : g.masterCache (cfg, key) = none) (hsome : g'.masterCache (cfg, key) = some n) :
    missing cfg keys g' < missing cfg keys g := by
  refine Finset.card_lt_card ((Finset.ssubset_iff_of_subset (h.missing_subset keys)).mpr ?_)
  refine ⟨key, Finset.mem_filter.mpr ⟨hkey, hnone⟩, fun hmem => ?_⟩
  have hnew := (Finset.mem_filter.mp hmem).2
  rw [hsome] at hnew
  cases hnew

end Graphs

end Distcc.IncludeServer
