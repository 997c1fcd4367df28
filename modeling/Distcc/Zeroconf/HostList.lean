import Distcc.Zeroconf.Daemon

/-!
# The hosts in the list

What the functions of the daemon do to the list of hosts in memory, when all of its nodes are
allocated (`Linked`). `remove_duplicate_services` keeps the first host of each name
(`removeDuplicateServices_spec`), `remove_service` takes out the host for a
service, and `write_hosts` writes a line for each host that is resolved
(`writeHosts_spec`).

Hosts that are freed are taken out of the list in each case, and their resolvers are freed with
them (`Frees`).
-/

namespace Distcc.Zeroconf

open CString Memory List Prog Function

variable {avahi : Avahi} {nSlots : ℤ} {m m' m'' : DaemonMemory} {p : Option ℕ} {k : ℕ}
  {l l' l'' : List (ℕ × Host)} {key : ServiceKey} {l₂ : List (ℕ × Host)}
  {e₀ e : ℕ × Host} {next : Option ℕ} {service : CString}

/-! ### Hosts are freed -/

/-- The resolvers that are open when a host was freed. -/
def resolversWithout (e : ℕ × Host) (resolvers : List ℕ) : List ℕ :=
  if e.2.resolver then resolvers.erase e.1 else resolvers

theorem freeHost_eq (hnode : m.nodes e.1 = some ⟨e.2, next⟩) :
    freeHost e.1 m = some (.ok (), ⟨Function.update m.nodes e.1 none, m.brk,
      ⟨m.vars.hosts, m.vars.file, resolversWithout e m.vars.resolvers⟩⟩) := by
  rw [freeHost, bind_of_ok (load_eq hnode), resolversWithout]
  by_cases hresolver : e.2.resolver
  · rw [if_pos hresolver, if_pos hresolver, assign_bind]
    exact free_eq hnode
  · rw [if_neg hresolver, if_neg hresolver]
    exact free_eq hnode

theorem resolversWithout_sublist (e : ℕ × Host) (resolvers : List ℕ) :
    (resolversWithout e resolvers).Sublist resolvers := by
  rw [resolversWithout]
  split
  · exact erase_sublist
  · exact .refl _

/-- **Hosts are freed**, those of the first list that are not in the second one, and nothing
else happens. -/
structure Frees (l l' : List (ℕ × Host)) (m m' : DaemonMemory) : Prop where
  brk : m'.brk = m.brk
  hosts : m'.vars.hosts = m.vars.hosts
  file : m'.vars.file = m.vars.file
  resolvers : m'.vars.resolvers.Sublist m.vars.resolvers
  closed : m.vars.resolvers.Nodup → ∀ e ∈ l, e ∉ l' → e.2.resolver = true →
    e.1 ∉ m'.vars.resolvers
  frame : ∀ a, a ∉ l.map Prod.fst → m'.nodes a = m.nodes a

theorem Frees.refl (l : List (ℕ × Host)) (m : DaemonMemory) : Frees l l m m :=
  ⟨rfl, rfl, rfl, .refl _, fun _ _ he hne => absurd he hne, fun _ _ => rfl⟩

theorem Frees.trans (h : Frees l l' m m') (h' : Frees l' l'' m' m'') (hsub : l' ⊆ l) :
    Frees l l'' m m'' := by
  constructor
  case brk => exact h'.brk.trans h.brk
  case hosts => exact h'.hosts.trans h.hosts
  case file => exact h'.file.trans h.file
  case resolvers => exact h'.resolvers.trans h.resolvers
  case closed =>
    intro hnodup e he hne hresolver
    by_cases he' : e ∈ l'
    · exact h'.closed (hnodup.sublist h.resolvers) e he' hne hresolver
    · exact fun hmem => h.closed hnodup e he he' hresolver (h'.resolvers.subset hmem)
  case frame =>
    intro a ha
    refine (h'.frame a fun hmem => ha ?_).trans (h.frame a ha)
    exact map_subset _ hsub hmem

/-- Hosts behind another one are freed. -/
theorem Frees.cons (h : Frees l l' m m') : Frees (e :: l) (e :: l') m m' := by
  refine ⟨h.brk, h.hosts, h.file, h.resolvers, fun hnodup e' he' hne => ?_, fun a ha => ?_⟩
  · obtain ⟨hne', hmem⟩ := not_or.mp (mt mem_cons.mpr hne)
    exact h.closed hnodup e' ((mem_cons.mp he').resolve_left hne') hmem
  · exact h.frame a fun hmem => ha (mem_cons_of_mem _ hmem)

/-- The host behind another one is taken out and freed. -/
theorem Frees.unlink {nodes : ℕ → Option (ListNode Host)}
    (hnodes : ∀ a, a ≠ e₀.1 → a ≠ e.1 → nodes a = m.nodes a) :
    Frees (e₀ :: e :: l) (e₀ :: l) m ⟨nodes, m.brk,
      ⟨m.vars.hosts, m.vars.file, resolversWithout e m.vars.resolvers⟩⟩ := by
  refine ⟨rfl, rfl, rfl, resolversWithout_sublist e _, ?_, fun a ha => ?_⟩
  · intro hnodup e' he' hne hresolver
    obtain ⟨hne0, hmem⟩ := not_or.mp (mt mem_cons.mpr hne)
    have he'' := mem_cons.mp ((mem_cons.mp he').resolve_left hne0)
    obtain rfl : e' = e := he''.resolve_right hmem
    rw [resolversWithout, if_pos hresolver]
    exact hnodup.not_mem_erase
  · simp only [map_cons, mem_cons, not_or] at ha
    exact hnodes a ha.1 ha.2.1

/-- The first host stays in front of what is left of the others. -/
theorem Frees.linked_cons (h : Frees l l' m m')
    (hnodup : ((e :: l).map Prod.fst).Nodup) (hnode : m.nodes e.1 = some ⟨e.2, next⟩)
    (hlinked : Linked m'.nodes next l') : Linked m'.nodes (some e.1) (e :: l') :=
  ⟨rfl, next, (h.frame e.1 (nodup_cons.mp hnodup).1).trans hnode, hlinked⟩

/-! ### Duplicates -/

/-- The first entry of each name, if it was not seen yet. -/
def distinct (seen : List CString) : List (ℕ × Host) → List (ℕ × Host)
  | [] => []
  | e :: l =>
    if e.2.service ∈ seen then distinct seen l else e :: distinct (e.2.service :: seen) l

theorem distinct_sublist (seen : List CString) (l : List (ℕ × Host)) :
    (distinct seen l).Sublist l := by
  induction l generalizing seen with
  | nil => exact .slnil
  | cons e l ih =>
    rw [distinct]
    split
    · exact (ih seen).cons e
    · exact (ih _).cons_cons e

/-- A host of the name is taken out, and the one in front of it stays. -/
theorem duplicateTurn_same
    (h : Linked m.nodes (some e₀.1) (e₀ :: e :: l)) (hservice : e.2.service = service) :
    ∃ m', duplicateTurn service (some e.1, e₀.1) m =
        some (.ok (.inl (l.head?.map Prod.fst, e₀.1)), m') ∧
      Linked m'.nodes (some e₀.1) (e₀ :: l) ∧ Frees (e₀ :: e :: l) (e₀ :: l) m m' := by
  have hne : e₀.1 ≠ e.1 := by
    have hnodup := h.nodup
    simp only [map_cons, nodup_cons, mem_cons, not_or] at hnodup
    exact hnodup.1.1
  obtain ⟨next, hnode0, hnode, rfl, hlinked⟩ := @Linked.unlink _ _ _ [] _ _ _ h
  have hnode' := (update_of_ne hne.symm (some ⟨e₀.2, l.head?.map Prod.fst⟩) m.nodes).trans
    hnode
  refine ⟨⟨Function.update (Function.update m.nodes e₀.1 (some ⟨e₀.2, l.head?.map Prod.fst⟩)) e.1
    none, m.brk, ⟨m.vars.hosts, m.vars.file, resolversWithout e m.vars.resolvers⟩⟩, ?_, hlinked,
    .unlink fun a ha0 ha => ?_⟩
  · rw [duplicateTurn, bind_of_ok (load_eq hnode), if_pos hservice.symm]
    refine (bind_of_ok (store_eq hnode0 _)).trans ?_
    refine (bind_of_ok (@freeHost_eq ⟨_, m.brk, m.vars⟩ e _ hnode')).trans ?_
    refine (bind_of_ok (@load_eq _ _ _ e₀.1 ⟨e₀.2, l.head?.map Prod.fst⟩ ?_)).trans rfl
    exact (update_of_ne hne ..).trans (update_self ..)
  · rw [update_of_ne ha, update_of_ne ha0]

/-- **The inner loop** frees the hosts of the name. -/
theorem loop_duplicateTurn {e₀ : ℕ × Host}
    (h : Linked m.nodes (some e₀.1) (e₀ :: l)) (hk : l.length < k) :
    ∃ m', Prog.loop (duplicateTurn service) k (l.head?.map Prod.fst, e₀.1) m = some (.ok (), m') ∧
      Linked m'.nodes (some e₀.1) (e₀ :: l.filter fun e => e.2.service ≠ service) ∧
      Frees (e₀ :: l) (e₀ :: l.filter fun e => e.2.service ≠ service) m m' := by
  induction l generalizing m e₀ k with
  | nil =>
    obtain ⟨k, rfl⟩ := Nat.exists_eq_add_one.mpr hk
    exact ⟨m, loop_done rfl, h, .refl _ m⟩
  | cons e l ih =>
    obtain ⟨k, rfl⟩ := Nat.exists_eq_add_one.mpr (Nat.zero_lt_of_lt hk)
    have hk' : l.length < k := Nat.lt_of_succ_lt_succ hk
    by_cases hservice : e.2.service = service
    · rw [filter_cons_of_neg (by simp [hservice])]
      obtain ⟨m₁, hturn, hlinked1, hfrees1⟩ := duplicateTurn_same h hservice
      obtain ⟨m', hloop, hlinked, hfrees⟩ := ih hlinked1 hk'
      refine ⟨m', (loop_next hturn).trans hloop, hlinked, hfrees1.trans hfrees ?_⟩
      exact cons_subset_cons _ (subset_cons_self _ _)
    · rw [filter_cons_of_pos (by simp [hservice])]
      have hnodup := h.nodup
      obtain ⟨-, next₀, hnode0, hrest⟩ := h
      obtain rfl : next₀ = some e.1 := hrest.1
      obtain ⟨m', hloop, hlinked, hfrees⟩ := ih hrest hk'
      have hturn : duplicateTurn service (some e.1, e₀.1) m =
          some (.ok (.inl (l.head?.map Prod.fst, e.1)), m) := by
        obtain ⟨-, next, hnode, hrest⟩ := hrest
        rw [duplicateTurn, bind_of_ok (load_eq hnode), if_neg (Ne.symm hservice),
          ← hrest.head_eq]
        rfl
      exact ⟨m', (loop_next hturn).trans hloop, hfrees.linked_cons hnodup hnode0 hlinked,
        hfrees.cons⟩

/-- **The outer loop** keeps the first host of each name. -/
theorem loop_duplicatesTurn {turns : ℕ} {seen : List CString}
    (h : Linked m.nodes p (l.filter fun e => e.2.service ∉ seen)) (hturns : l.length < turns)
    (hk : l.length < k) :
    ∃ m', Prog.loop (duplicatesTurn turns) k p m = some (.ok (), m') ∧
      Linked m'.nodes p (distinct seen l) ∧
      Frees (l.filter fun e => e.2.service ∉ seen) (distinct seen l) m m' := by
  induction l generalizing m p k seen with
  | nil =>
    obtain ⟨k, rfl⟩ := Nat.exists_eq_add_one.mpr hk
    obtain rfl : p = none := h
    exact ⟨m, loop_done rfl, rfl, .refl _ m⟩
  | cons e l ih =>
    rw [distinct]
    by_cases hseen : e.2.service ∈ seen
    · rw [filter_cons_of_neg (by simp [hseen])] at h ⊢
      rw [if_pos hseen]
      exact ih h (Nat.lt_of_succ_lt hturns) (Nat.lt_of_succ_lt hk)
    · rw [filter_cons_of_pos (by simp [hseen])] at h ⊢
      rw [if_neg hseen]
      obtain ⟨k, rfl⟩ := Nat.exists_eq_add_one.mpr (Nat.zero_lt_of_lt hk)
      obtain ⟨rfl, next, hnode, hrest⟩ := id h
      have hlen := length_filter_le (fun e => decide (e.2.service ∉ seen)) l
      obtain ⟨m₁, hinner, hlinked1, hfrees1⟩ := @loop_duplicateTurn _ turns _ e.2.service e h
        (Nat.lt_of_le_of_lt hlen (Nat.lt_of_succ_lt hturns))
      have hfilter : ((l.filter fun e => e.2.service ∉ seen).filter
          fun e' => e'.2.service ≠ e.2.service) =
          l.filter fun e' => e'.2.service ∉ e.2.service :: seen := by
        rw [filter_filter]
        refine filter_congr fun e' _ => ?_
        simp [not_or]
      rw [hfilter] at hlinked1 hfrees1
      have hnodup := hlinked1.nodup
      obtain ⟨-, next₁, hnode1, hrest1⟩ := hlinked1
      obtain ⟨m', hloop, hlinked, hfrees⟩ := @ih m₁ next₁ k _ hrest1 (Nat.lt_of_succ_lt hturns)
        (Nat.lt_of_succ_lt_succ hk)
      have hturn : duplicatesTurn turns (some e.1) m = some (.ok (.inl next₁), m₁) := by
        rw [duplicatesTurn, bind_of_ok (load_eq hnode), hrest.head_eq, bind_of_ok hinner,
          bind_of_ok (load_eq hnode1)]
        rfl
      refine ⟨m', (loop_next hturn).trans hloop, hfrees.linked_cons hnodup hnode1 hlinked,
        hfrees1.trans hfrees.cons ?_⟩
      rw [← hfilter]
      exact cons_subset_cons _ (filter_subset_self _)

/-- **`remove_duplicate_services` keeps the first host of each name.** -/
theorem removeDuplicateServices_spec (h : Linked m.nodes m.vars.hosts l)
    (hbelow : ∀ e ∈ l, e.1 < m.brk) :
    ∃ m', removeDuplicateServices m = some (.ok (), m') ∧
      Linked m'.nodes m'.vars.hosts (distinct [] l) ∧ Frees l (distinct [] l) m m' := by
  have hlen := Nat.lt_succ_of_le (h.length_le hbelow)
  have hall : (l.filter fun e => e.2.service ∉ ([] : List CString)) = l :=
    filter_eq_self.mpr (by simp)
  obtain ⟨m', hrun, hlinked, hfrees⟩ := @loop_duplicatesTurn m _ (m.brk + 1) l (m.brk + 1) []
    (hall.symm ▸ h) hlen hlen
  rw [hall] at hfrees
  refine ⟨m', ?_, hfrees.hosts ▸ hlinked, hfrees⟩
  rw [removeDuplicateServices, get_bind]
  exact hrun

/-! ### Lines -/

/-- The address of a host, if it is resolved. -/
def Host.resolution (h : Host) : Option Resolution :=
  if h.resolver then none else h.address.map fun a => ⟨a.1, a.2, h.nCpus⟩

/-- A host that is resolved has an address. -/
def Host.AddressSet (h : Host) : Prop := h.resolver = false → h.address.isSome

/-- The content of the file is changed. -/
def withFile (m : DaemonMemory) (file : CString) : DaemonMemory :=
  ⟨m.nodes, m.brk, ⟨m.vars.hosts, file, m.vars.resolvers⟩⟩

/-- **The lines are written** while the numbers of slots are not too large. -/
theorem loop_writeTurn {io : WriteIo} {line : ℕ} {file : CString} (h : Linked m.nodes p l)
    (haddresses : ∀ e ∈ l, e.2.AddressSet) (hk : l.length < k) :
    ∃ result file', Prog.loop (writeTurn avahi nSlots io) k (p, line) (withFile m file) =
        some (result, withFile m file') ∧
      (result = .ok () ↔ SlotsWritable nSlots io line (l.filterMap fun e => e.2.resolution)) ∧
      (result = .ok () → (∀ line, io.writes line = true) →
        file' = file ++ hostsText avahi nSlots (l.filterMap fun e => e.2.resolution)) := by
  induction l generalizing p k line file with
  | nil =>
    obtain ⟨k, rfl⟩ := Nat.exists_eq_add_one.mpr hk
    obtain rfl : p = none := h
    exact ⟨_, file, loop_done rfl, iff_of_true rfl trivial,
      fun _ _ => (append_nil file).symm⟩
  | cons e l ih =>
    obtain ⟨k, rfl⟩ := Nat.exists_eq_add_one.mpr (Nat.zero_lt_of_lt hk)
    obtain ⟨rfl, next, hnode, hrest⟩ := h
    obtain ⟨he, hl⟩ := forall_mem_cons.mp haddresses
    have hload := @load_eq _ _ (withFile m file) _ _ hnode
    cases hresolver : e.2.resolver with
    | true =>
      have hturn : writeTurn avahi nSlots io (some e.1, line) (withFile m file) =
          some (.ok (.inl (next, line)), withFile m file) := by
        rw [writeTurn, bind_of_ok hload, if_pos hresolver]
        rfl
      have hnone : e.2.resolution = none := if_pos hresolver
      rw [loop_next hturn]
      simp only [filterMap_cons, hnone]
      exact ih hrest hl (Nat.lt_of_succ_lt_succ hk)
    | false =>
      obtain ⟨⟨address, port⟩, haddress⟩ := Option.isSome_iff_exists.mp (he hresolver)
      have hresolution : e.2.resolution = some ⟨address, port, e.2.nCpus⟩ := by
        rw [Host.resolution, hresolver, haddress]
        rfl
      have hturn : writeTurn avahi nSlots io (some e.1, line) (withFile m file) =
          (if IsInt (nSlots * e.2.nCpus) then
            if io.writes line then do
              assign fun v =>
                { v with file := v.file ++ hostLine avahi nSlots ⟨address, port, e.2.nCpus⟩ }
              pure (.inl (next, line + 1))
            else pure (.inr ())
          else Prog.fail .overflow : Prog DaemonMemory Fault (Option ℕ × ℕ ⊕ Unit))
            (withFile m file) := by
        rw [writeTurn, bind_of_ok hload, if_neg (by simp [hresolver])]
        simp only [haddress]
      simp only [filterMap_cons, hresolution, SlotsWritable]
      by_cases hint : IsInt (nSlots * e.2.nCpus)
      · rw [if_pos hint] at hturn
        by_cases hwrites : io.writes line = true
        · rw [if_pos hwrites] at hturn
          obtain ⟨result, file', hloop, hresult, hfile⟩ := @ih next k (line + 1)
            (file ++ hostLine avahi nSlots ⟨address, port, e.2.nCpus⟩) hrest hl
            (Nat.lt_of_succ_lt_succ hk)
          refine ⟨result, file', (loop_next hturn).trans hloop, ?_, fun hok hall => ?_⟩
          · rw [hresult, and_iff_right hint, imp_iff_right hwrites]
          · rw [hfile hok hall, append_assoc]
            rfl
        · rw [if_neg hwrites] at hturn
          exact ⟨_, file, loop_done hturn, iff_of_true rfl ⟨hint, fun h => absurd h hwrites⟩,
            fun _ hall => absurd (hall line) hwrites⟩
      · rw [if_neg hint] at hturn
        exact ⟨_, file, loop_error hturn, iff_of_false nofun fun h => hint h.1, nofun⟩

/-- **`write_hosts` writes a line for each host that is left and resolved.** -/
theorem writeHosts_spec {io : WriteIo} (hopens : io.Opens) (h : Linked m.nodes m.vars.hosts l)
    (hbelow : ∀ e ∈ l, e.1 < m.brk) (haddresses : ∀ e ∈ l, e.2.AddressSet) :
    ∃ result m' file, writeHosts avahi nSlots io m = some (result, withFile m' file) ∧
      Linked m'.nodes m'.vars.hosts (distinct [] l) ∧
      Frees l (distinct [] l) (withFile m []) m' ∧
      (result = .ok () ↔
        SlotsWritable nSlots io 0 ((distinct [] l).filterMap fun e => e.2.resolution)) ∧
      (result = .ok () → (∀ line, io.writes line = true) → file =
        hostsText avahi nSlots ((distinct [] l).filterMap fun e => e.2.resolution)) := by
  have hsub := distinct_sublist [] l
  obtain ⟨m', hrun, hlinked, hfrees⟩ := @removeDuplicateServices_spec (withFile m []) l h hbelow
  have hlen : (distinct [] l).length < m'.brk + 1 := by
    refine Nat.lt_succ_of_le (hlinked.length_le fun e he => ?_)
    rw [hfrees.brk]
    exact hbelow e (hsub.subset he)
  obtain ⟨result, file, hloop, hresult, hfile⟩ := @loop_writeTurn avahi nSlots m' _ _ _ io 0
    m'.vars.file hlinked (fun e he => haddresses e (hsub.subset he)) hlen
  refine ⟨result, m', file, ?_, hlinked, hfrees, hresult, fun hok hall => ?_⟩
  · rw [writeHosts, if_pos hopens, assign_bind]
    exact (bind_of_ok hrun).trans hloop
  · rw [hfile hok hall, hfrees.file]
    rfl

/-! ### Services that have gone -/

/-- Hosts for other services are passed. -/
theorem loop_removeTurn_skip {prev : Option ℕ}
    (h : Linked m.nodes p (l ++ l₂)) (hother : ∀ e ∈ l, e.2.isFor avahi key = false) :
    Prog.loop (removeTurn avahi key) (l.length + k) (p, prev) m =
      Prog.loop (removeTurn avahi key) k
        (l₂.head?.map Prod.fst, (l.getLast?.map Prod.fst).or prev) m := by
  induction l generalizing p prev with
  | nil =>
    rw [nil_append] at h
    rw [← h.head_eq, length_nil, Nat.zero_add]
    rfl
  | cons e l ih =>
    obtain ⟨rfl, next, hnode, hrest⟩ := h
    obtain ⟨he, hl⟩ := forall_mem_cons.mp hother
    have hturn : removeTurn avahi key (some e.1, prev) m =
        some (.ok (.inl (next, some e.1)), m) := by
      rw [removeTurn, bind_of_ok (load_eq hnode), if_neg (by simp [he])]
      rfl
    rw [length_cons, Nat.add_right_comm, loop_next hturn, ih hrest hl]
    cases l with
    | nil => rfl
    | cons e' l => rw [getLast?_cons_cons, getLast?_cons]; rfl

/-- There is no host for the service. -/
theorem removeService_of_not_mem (h : Linked m.nodes m.vars.hosts l)
    (hbelow : ∀ e ∈ l, e.1 < m.brk) (hother : ∀ e ∈ l, e.2.isFor avahi key = false) :
    removeService avahi key m = some (.ok (), m) := by
  obtain ⟨k, hk⟩ := Nat.exists_eq_add_of_le (h.length_le hbelow)
  rw [removeService, get_bind, hk, Nat.add_assoc]
  exact (loop_removeTurn_skip ((append_nil l).symm ▸ h) hother).trans (loop_done rfl)

/-- **The host for a service is taken out** and freed. -/
theorem removeService_of_mem
    (h : Linked m.nodes m.vars.hosts (l ++ e :: l₂)) (hbelow : ∀ e' ∈ l ++ e :: l₂, e'.1 < m.brk)
    (hother : ∀ e' ∈ l, e'.2.isFor avahi key = false) (he : e.2.isFor avahi key = true) :
    ∃ nodes hosts, removeService avahi key m = some (.ok (), ⟨nodes, m.brk,
        ⟨hosts, m.vars.file, resolversWithout e m.vars.resolvers⟩⟩) ∧
      Linked nodes hosts (l ++ l₂) := by
  have hlen := h.length_le hbelow
  rw [length_append] at hlen
  obtain ⟨k, hk⟩ := Nat.exists_eq_add_of_le ((Nat.le_add_right ..).trans hlen)
  obtain ⟨next, hnode, -⟩ := h.behind
  have hskip := @loop_removeTurn_skip avahi m _ (k + 1) l key _ none h hother
  rw [← Nat.add_assoc, ← hk] at hskip
  rw [removeService, get_bind, hskip]
  obtain rfl | ⟨l₀, e₀, rfl⟩ := eq_nil_or_concat' l
  · -- the first host of the list
    obtain ⟨next', hnode', hlinked⟩ := h.pop
    obtain ⟨-, rfl⟩ := ListNode.mk.inj (Option.some.inj (hnode.symm.trans hnode'))
    refine ⟨_, _, loop_done ?_, hlinked⟩
    refine (bind_of_ok (load_eq hnode)).trans ?_
    rw [if_pos he]
    exact bind_of_ok (@freeHost_eq ⟨m.nodes, m.brk,
      ⟨next, m.vars.file, m.vars.resolvers⟩⟩ e next hnode)
  · rw [append_assoc, singleton_append] at h
    obtain ⟨next', hnode0, hnode', -, hlinked⟩ := h.unlink
    have hne : e.1 ≠ e₀.1 := by
      intro heq
      have hnodup := h.nodup
      simp only [map_append, map_cons, nodup_append, nodup_cons,
        mem_cons, not_or] at hnodup
      exact hnodup.2.1.1.1 heq.symm
    have hnode1 : Function.update m.nodes e₀.1 (some ⟨e₀.2, next'⟩) e.1 = some ⟨e.2, next'⟩ :=
      (update_of_ne hne ..).trans hnode'
    refine ⟨_, m.vars.hosts, loop_done ?_, by simpa using hlinked⟩
    rw [getLast?_concat]
    refine (bind_of_ok (load_eq hnode')).trans ?_
    rw [if_pos he]
    refine (bind_of_ok (store_eq hnode0 _)).trans ?_
    exact bind_of_ok (@freeHost_eq ⟨_, m.brk, m.vars⟩ e next' hnode1)

end Distcc.Zeroconf
