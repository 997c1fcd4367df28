import Distcc.Base.Chain
import Distcc.Base.Prog
import Mathlib.Data.List.Perm.Subperm

/-!
# Lists of nodes that are allocated and freed

Memory in which nodes are allocated, changed and freed, as a program with a linked list
needs it. A node holds a value, and the address of the next node. Addresses are given out
once, so that every use of a node after it was freed is a fault
(`Memory.load`).

`Linked` says which nodes, all of them allocated, are met from a pointer on. It is
kept by what programs do with such lists: a node is put in front (`Linked.push`),
and a node is taken out, at the front (`Linked.pop`) or behind another one
(`Linked.unlink`), and freed. A node that is freed without being taken out breaks the
list (`Linked.not_linked_freed`).
-/

namespace Distcc

open List Function

/-- A node of a list. -/
structure ListNode (α : Type) where
  /-- What it holds. -/
  data : α
  /-- Where it points. -/
  next : Option ℕ
  deriving DecidableEq, Repr

/-- The nodes by their addresses, and the variables of the program. -/
structure Memory (α β : Type) where
  /-- The nodes that are allocated. -/
  nodes : ℕ → Option (ListNode α)
  /-- From this address on, nothing was given out yet. -/
  brk : ℕ
  /-- The variables. -/
  vars : β

variable {α β : Type}

namespace Memory

/-- The node that a pointer points to, which must not be `NULL` or freed. -/
def load (p : Option ℕ) : Prog (Memory α β) Fault (ListNode α) := do
  match p with
  | none => Prog.fail .null
  | some a =>
    let m ← Prog.get
    match m.nodes a with
    | none => Prog.fail .freed
    | some node => pure node

/-- The node that a pointer points to is changed. -/
def store (p : Option ℕ) (f : ListNode α → ListNode α) : Prog (Memory α β) Fault Unit := do
  let node ← load p
  match p with
  | none => Prog.fail .null
  | some a => Prog.modify fun m => { m with nodes := Function.update m.nodes a (some (f node)) }

/-- `malloc`, with what is written to the new node at once. -/
def malloc (node : ListNode α) : Prog (Memory α β) Fault ℕ := do
  let m ← Prog.get
  Prog.modify fun m =>
    { m with nodes := Function.update m.nodes m.brk (some node), brk := m.brk + 1 }
  pure m.brk

/-- `free` -/
def free (p : Option ℕ) : Prog (Memory α β) Fault Unit := do
  let _ ← load p
  match p with
  | none => Prog.fail .null
  | some a => Prog.modify fun m => { m with nodes := Function.update m.nodes a none }

/-- The variables are changed. -/
def assign (f : β → β) : Prog (Memory α β) Fault Unit :=
  Prog.modify fun m => { m with vars := f m.vars }

section Runs

variable {m : Memory α β} {a : ℕ} {node : ListNode α}

theorem load_eq (h : m.nodes a = some node) : load (some a) m = some (.ok node, m) := by
  rw [load, Prog.get_bind, h]
  rfl

theorem store_eq (h : m.nodes a = some node) (f : ListNode α → ListNode α) :
    store (some a) f m =
      some (.ok (), { m with nodes := Function.update m.nodes a (some (f node)) }) :=
  Prog.bind_of_ok (load_eq h)

theorem free_eq (h : m.nodes a = some node) :
    free (some a) m = some (.ok (), { m with nodes := Function.update m.nodes a none }) :=
  Prog.bind_of_ok (load_eq h)

theorem assign_bind {γ : Type} {f : β → β} {g : Unit → Prog (Memory α β) Fault γ} :
    (assign f >>= g) m = g () { m with vars := f m.vars } := rfl

end Runs

end Memory

/-! ### Lists in memory -/

/-- From this pointer on, these nodes are met, each with its address, and then `NULL`. -/
def Linked (nodes : ℕ → Option (ListNode α)) : Option ℕ → List (ℕ × α) → Prop
  | p, [] => p = none
  | p, e :: l => p = some e.1 ∧ ∃ next, nodes e.1 = some ⟨e.2, next⟩ ∧ Linked nodes next l

namespace Linked

variable {nodes nodes' : ℕ → Option (ListNode α)} {p : Option ℕ} {l l₁ l₂ : List (ℕ × α)}
  {e e' : ℕ × α} {a : ℕ} {x : α}

section

variable (h : Linked nodes p l)
include h

theorem chain : Chain (fun a => (nodes a).bind ListNode.next) p (l.map Prod.fst) := by
  induction l generalizing p with
  | nil => exact h
  | cons e l ih =>
    obtain ⟨hp, next, hnode, hrest⟩ := h
    refine ⟨hp, ?_⟩
    dsimp only
    rw [hnode]
    exact ih hrest

/-- No address is met twice. -/
theorem nodup : (l.map Prod.fst).Nodup := h.chain.nodup

/-- What is met depends on the nodes that are met only. -/
theorem congr (hnodes : ∀ e ∈ l, nodes' e.1 = nodes e.1) : Linked nodes' p l := by
  induction l generalizing p with
  | nil => exact h
  | cons e l ih =>
    obtain ⟨hp, next, hnode, hrest⟩ := h
    obtain ⟨he, hl⟩ := forall_mem_cons.mp hnodes
    exact ⟨hp, next, he.trans hnode, ih hrest hl⟩

/-- Changing a node that is not met makes no difference. -/
theorem update_of_not_mem (ha : a ∉ l.map Prod.fst)
    (node : Option (ListNode α)) : Linked (Function.update nodes a node) p l := by
  refine h.congr fun e he => update_of_ne ?_ _ _
  rintro rfl
  exact ha (mem_map_of_mem he)

/-- The nodes that are met are allocated. -/
theorem node_of_mem (he : e ∈ l) : ∃ next, nodes e.1 = some ⟨e.2, next⟩ := by
  induction l generalizing p with
  | nil => cases he
  | cons e' l ih =>
    obtain ⟨-, next, hnode, hrest⟩ := h
    obtain rfl | he := mem_cons.mp he
    · exact ⟨next, hnode⟩
    · exact ih hrest he

/-- A new node in front. -/
theorem push (ha : a ∉ l.map Prod.fst) (x : α) :
    Linked (Function.update nodes a (some ⟨x, p⟩)) (some a) ((a, x) :: l) :=
  ⟨rfl, p, update_self .., h.update_of_not_mem ha _⟩

end

/-- The first node is freed. -/
theorem pop (h : Linked nodes p (e :: l)) : ∃ next, nodes e.1 = some ⟨e.2, next⟩ ∧
    Linked (Function.update nodes e.1 none) next l := by
  have hnodup := h.nodup
  rw [map_cons, nodup_cons] at hnodup
  obtain ⟨-, next, hnode, hrest⟩ := h
  exact ⟨next, hnode, hrest.update_of_not_mem hnodup.1 _⟩

/-- What a node holds is changed. -/
theorem set_data (h : Linked nodes p l) {next : Option ℕ} {y : α} (hnode : nodes a = some ⟨y, next⟩)
    (x : α) : Linked (Function.update nodes a (some ⟨x, next⟩)) p
      (l.map fun e => if e.1 = a then (a, x) else e) := by
  induction l generalizing p with
  | nil => exact h
  | cons e l ih =>
    have hnodup := h.nodup
    rw [map_cons, nodup_cons] at hnodup
    obtain ⟨hp, next', hnode', hrest⟩ := h
    rw [map_cons]
    by_cases he : e.1 = a
    · have hsame : ∀ e' ∈ l, (if e'.1 = a then (a, x) else e') = e' := by
        intro e' he'
        refine if_neg fun heq : e'.1 = a => hnodup.1 ?_
        exact (he.trans heq.symm) ▸ mem_map_of_mem he'
      rw [if_pos he, map_congr_left hsame, map_id']
      obtain ⟨-, rfl⟩ := ListNode.mk.inj (Option.some.inj (hnode.symm.trans (he ▸ hnode')))
      exact ⟨hp.trans (congrArg some he), next, update_self ..,
        hrest.update_of_not_mem (he ▸ hnodup.1) _⟩
    · rw [if_neg he]
      exact ⟨hp, next', (update_of_ne he ..).trans hnode', ih hrest⟩

/-- There are not more nodes than addresses. -/
theorem length_le (h : Linked nodes p l) {n : ℕ} (hn : ∀ e ∈ l, e.1 < n) : l.length ≤ n := by
  have hsub : l.map Prod.fst ⊆ List.range n := by
    intro a ha
    obtain ⟨e, he, rfl⟩ := mem_map.mp ha
    exact mem_range.mpr (hn e he)
  simpa using (subperm_of_subset h.nodup hsub).length_le

theorem head_eq (h : Linked nodes p l) : p = l.head?.map Prod.fst := by
  cases l with
  | nil => exact h
  | cons e l => exact h.1

/-- A node that is met, and what is met behind it. -/
theorem behind (h : Linked nodes p (l₁ ++ e :: l₂)) :
    ∃ next, nodes e.1 = some ⟨e.2, next⟩ ∧ Linked nodes next l₂ := by
  induction l₁ generalizing p with
  | nil => exact h.2
  | cons e₀ l₁ ih =>
    obtain ⟨-, next, -, hrest⟩ := h
    exact ih hrest

/-- **A node is taken out and freed**: the one in front of it points to the next one. -/
theorem unlink (h : Linked nodes p (l₁ ++ e :: e' :: l₂)) :
    ∃ next, nodes e.1 = some ⟨e.2, some e'.1⟩ ∧ nodes e'.1 = some ⟨e'.2, next⟩ ∧
      next = l₂.head?.map Prod.fst ∧
      Linked (Function.update (Function.update nodes e.1 (some ⟨e.2, next⟩)) e'.1 none) p
        (l₁ ++ e :: l₂) := by
  have hnodup := h.nodup
  induction l₁ generalizing p with
  | nil =>
    obtain ⟨hp, next₁, hnode, rfl, next, hnode', hrest⟩ := h
    simp only [nil_append, map_cons, nodup_cons, mem_cons, not_or] at hnodup
    obtain ⟨⟨hne, he⟩, he', -⟩ := hnodup
    refine ⟨next, hnode, hnode', hrest.head_eq, hp, next, ?_, ?_⟩
    · rw [update_of_ne hne, update_self]
    · exact (hrest.update_of_not_mem he _).update_of_not_mem he' _
  | cons e₀ l₁ ih =>
    obtain ⟨hp, next₀, hnode0, hrest⟩ := h
    rw [cons_append, map_cons, nodup_cons] at hnodup
    obtain ⟨next, hnode, hnode', hnext, hlinked⟩ := ih hrest hnodup.2
    refine ⟨next, hnode, hnode', hnext, hp, next₀, ?_, hlinked⟩
    have hne : e₀.1 ≠ e.1 ∧ e₀.1 ≠ e'.1 := by
      simp only [map_append, map_cons, mem_append, mem_cons, not_or] at hnodup
      exact ⟨hnodup.1.2.1, hnodup.1.2.2.1⟩
    rw [update_of_ne hne.2, update_of_ne hne.1, hnode0]

/-- **A node that is freed is still met** if it is not taken out, and so nothing is linked. -/
theorem not_linked_freed (h : Linked nodes p l) (he : e ∈ l) (l' : List (ℕ × α)) :
    ¬ Linked (Function.update nodes e.1 none) p l' := by
  induction l generalizing p l' with
  | nil => cases he
  | cons e₀ l ih =>
    obtain ⟨rfl, next, hnode, hrest⟩ := h
    cases l' with
    | nil => exact nofun
    | cons e₁ l' =>
      rintro ⟨hp, next', hnode', hrest'⟩
      obtain hp : e₀.1 = e₁.1 := Option.some.inj hp
      rw [← hp] at hnode'
      by_cases heq : e₀.1 = e.1
      · rw [heq, update_self] at hnode'
        cases hnode'
      · rw [update_of_ne heq, hnode] at hnode'
        obtain ⟨-, rfl⟩ := ListNode.mk.inj (Option.some.inj hnode')
        obtain rfl | he := mem_cons.mp he
        · exact heq rfl
        · exact ih hrest he l' hrest'

end Linked

end Distcc
