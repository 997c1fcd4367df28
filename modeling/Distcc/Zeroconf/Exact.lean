import Distcc.Zeroconf.HostList

/-!
# The file has the services that are announced

What the daemon is for can be said without its memory: the services that are announced and
resolved are to be in the file, one line for each name (`FileExact`). While no
resolver fails, the list in memory is that of the instances for which there is a host
(`Refines`). Then an event is handled as it should be if, and only if, the
newest host of every service that is resolved is resolved
(`handledWell_iff`).

A host whose resolver fails is freed, and stays in the list
(`failure_dangles`). When the file is written, the newest host of a name is
kept and the others are freed, whether it is resolved or not, and a host that was freed is not
made again when the one that was kept has gone.
-/

namespace Distcc.Zeroconf

open CString Memory List Prog Option

/-! ### The list is what is announced -/

/-- The host that is in memory for an instance. -/
def Instance.toHost (i : Instance) : Host where
  interface := i.key.interface
  protocol := i.key.protocol
  service := i.key.name
  domain := i.key.domain
  address := i.resolved.map fun r => (r.address, r.port)
  nCpus := (i.resolved.map Resolution.nCpus).getD 1
  resolver := i.resolved.isNone

/-- The host of an instance, with its address. -/
def Instance.entry (i : Instance) : Option (ℕ × Host) := i.host.map fun h => (h, i.toHost)

/-- The hosts that are in memory. -/
def Announced.hostList (w : Announced) : List (ℕ × Host) := w.instances.filterMap Instance.entry

/-- **The memory has the instances that are announced.** -/
structure Refines (avahi : Avahi) (m : DaemonMemory) (w : Announced) : Prop where
  brk : m.brk = w.count
  linked : Linked m.nodes m.vars.hosts w.hostList
  below : ∀ i ∈ w.instances, ∀ h ∈ i.host, h < w.count
  keys : w.instances.Pairwise fun i j => i.isFor avahi j.key = false
  resolvers : ∀ h ∈ m.vars.resolvers, ∃ i ∈ w.instances, i.host = some h ∧ i.resolved = none
  nodup : m.vars.resolvers.Nodup

section Steps

variable {avahi : Avahi} {nSlots : ℤ} {m m' : DaemonMemory} {w : Announced} {i : Instance}
  {e : Event} {rs : List Resolution} (seen : List CString) (l : List Instance)

theorem Instance.entry_eq_some_iff {e : ℕ × Host} :
    i.entry = some e ↔ i.host = some e.1 ∧ e.2 = i.toHost := by
  obtain ⟨h, x⟩ := e
  rw [Instance.entry, map_eq_some_iff]
  constructor
  · rintro ⟨h', hh, heq⟩
    obtain ⟨rfl, rfl⟩ := Prod.mk.inj heq
    exact ⟨hh, rfl⟩
  · rintro ⟨hh, rfl⟩
    exact ⟨h, hh, rfl⟩

theorem Announced.mem_hostList {e : ℕ × Host} :
    e ∈ w.hostList ↔ ∃ i ∈ w.instances, i.host = some e.1 ∧ e.2 = i.toHost := by
  rw [hostList, mem_filterMap]
  exact exists_congr fun i => and_congr_right fun _ => Instance.entry_eq_some_iff

theorem Refines.below_brk (h : Refines avahi m w) : ∀ e ∈ w.hostList, e.1 < m.brk := by
  intro e he
  obtain ⟨i, hi, hhost, -⟩ := Announced.mem_hostList.mp he
  exact h.brk ▸ h.below i hi e.1 hhost

theorem start_refines : Refines avahi .start {} := by
  constructor
  case brk => rfl
  case linked => rfl
  case below => simp
  case keys => exact .nil
  case resolvers => exact fun h hh => nomatch hh
  case nodup => exact .nil

/-- What is in the file does not matter for the list. -/
theorem Refines.withFile (h : Refines avahi m w) (file : CString) :
    Refines avahi (withFile m file) w :=
  ⟨h.brk, h.linked, h.below, h.keys, h.resolvers, h.nodup⟩

/-- Two instances for the same service are for the service of each other. -/
theorem Instance.isFor_of_isFor {j : Instance} {key : ServiceKey} (hi : i.isFor avahi key = true)
    (hj : j.isFor avahi key = true) : i.isFor avahi j.key = true := by
  simp only [isFor, Bool.and_eq_true, decide_eq_true_eq] at hi hj ⊢
  obtain ⟨⟨⟨hinterface, hprotocol⟩, hname⟩, hdomain⟩ := hi
  obtain ⟨⟨⟨hinterface', hprotocol'⟩, hname'⟩, hdomain'⟩ := hj
  refine ⟨⟨⟨hinterface.trans hinterface'.symm, hprotocol.trans hprotocol'.symm⟩,
    hname.trans hname'.symm⟩, ?_⟩
  exact avahi.domainEqual_trans _ _ _ hdomain (avahi.domainEqual_symm _ _ hdomain')

theorem Instance.isFor_self (i : Instance) : i.isFor avahi i.key = true := by
  simp [isFor, avahi.domainEqual_refl]

/-- A host is made for the service. -/
theorem browseNew_created (key : ServiceKey) (m : DaemonMemory) :
    browseNew key true m = some (.ok (), ⟨Function.update m.nodes m.brk
      (some ⟨(Instance.mk key (some m.brk) none).toHost, m.vars.hosts⟩), m.brk + 1,
      ⟨some m.brk, m.vars.file, m.brk :: m.vars.resolvers⟩⟩) := rfl

/-- There is no resolver, and the host is freed again. -/
theorem browseNew_failed (key : ServiceKey) (m : DaemonMemory) : ∃ node,
    browseNew key false m = some (.ok (), ⟨Function.update (Function.update m.nodes m.brk node)
      m.brk none, m.brk + 1, m.vars⟩) :=
  ⟨_, @free_eq _ _ ⟨_, m.brk + 1, m.vars⟩ _ _ (Function.update_self ..)⟩

/-- A service is announced. -/
theorem Refines.browseNew (h : Refines avahi m w) {key : ServiceKey} {created : Bool}
    (hnew : ∀ i ∈ w.instances, i.isFor avahi key = false) :
    ∃ m', browseNew key created m = some (.ok (), m') ∧
      Refines avahi m' (w.told avahi (.new key created)) := by
  obtain ⟨instances, count⟩ := w
  obtain rfl : m.brk = count := h.brk
  have hfresh : m.brk ∉ (Announced.mk instances m.brk).hostList.map Prod.fst := by
    intro hmem
    obtain ⟨e, he, heq⟩ := mem_map.mp hmem
    exact Nat.lt_irrefl _ (heq ▸ h.below_brk e he)
  have hkeys (host : Option ℕ) : (Instance.mk key host none :: instances).Pairwise
      fun i j => i.isFor avahi j.key = false := by
    refine pairwise_cons.mpr ⟨fun j hj => Bool.eq_false_iff.mpr fun htrue => ?_, h.keys⟩
    exact Bool.eq_false_iff.mp (hnew j hj) (Instance.isFor_of_isFor (Instance.isFor_self j) htrue)
  have hbelow : ∀ i ∈ instances, ∀ a ∈ i.host, a < m.brk + 1 := fun i hi a ha =>
    Nat.lt_succ_of_lt (h.below i hi a ha)
  have hresolvers (n : Instance) : ∀ a ∈ m.vars.resolvers, ∃ i ∈ n :: instances,
      i.host = some a ∧ i.resolved = none := by
    intro a ha
    obtain ⟨i, hi, hhost⟩ := h.resolvers a ha
    exact ⟨i, mem_cons_of_mem _ hi, hhost⟩
  cases created with
  | true =>
    refine ⟨_, browseNew_created key m, ?_⟩
    constructor
    case brk => rfl
    case linked => exact h.linked.push hfresh _
    case below =>
      refine forall_mem_cons.mpr ⟨?_, hbelow⟩
      rintro a ⟨⟩
      exact Nat.lt_succ_self _
    case keys => exact hkeys _
    case resolvers =>
      refine forall_mem_cons.mpr ⟨⟨_, mem_cons_self, rfl, rfl⟩, hresolvers _⟩
    case nodup =>
      refine nodup_cons.mpr ⟨fun hmem => ?_, h.nodup⟩
      obtain ⟨i, hi, hhost, -⟩ := h.resolvers m.brk hmem
      exact Nat.lt_irrefl _ (h.below i hi m.brk hhost)
  | false =>
    obtain ⟨node, hrun⟩ := browseNew_failed key m
    refine ⟨_, hrun, ?_⟩
    constructor
    case brk => rfl
    case linked => exact (h.linked.update_of_not_mem hfresh _).update_of_not_mem hfresh _
    case below => exact forall_mem_cons.mpr ⟨nofun, hbelow⟩
    case keys => exact hkeys _
    case resolvers => exact hresolvers _
    case nodup => exact h.nodup

/-- The list without one of the instances, with the resolvers that are left. -/
theorem Refines.without {l₁ l₂ : List Instance} {count : ℕ}
    (h : Refines avahi m ⟨l₁ ++ i :: l₂, count⟩) {nodes : ℕ → Option (ListNode Host)}
    {hosts : Option ℕ} {resolvers : List ℕ}
    (hlinked : Linked nodes hosts (Announced.mk (l₁ ++ l₂) count).hostList)
    (hsub : resolvers.Sublist m.vars.resolvers)
    (hgone : ∀ a ∈ i.host, i.resolved = none → a ∉ resolvers) :
    Refines avahi ⟨nodes, m.brk, ⟨hosts, m.vars.file, resolvers⟩⟩ ⟨l₁ ++ l₂, count⟩ := by
  have hmem : ∀ j ∈ l₁ ++ l₂, j ∈ l₁ ++ i :: l₂ := fun j hj =>
    (sublist_cons_self i l₂).append_left l₁ |>.subset hj
  constructor
  case brk => exact h.brk
  case linked => exact hlinked
  case below => exact fun j hj => h.below j (hmem j hj)
  case keys => exact h.keys.sublist ((sublist_cons_self i l₂).append_left l₁)
  case resolvers =>
    intro a ha
    obtain ⟨j, hj, hhost, hnone⟩ := h.resolvers a (hsub.subset ha)
    obtain hj | hj := mem_append.mp hj
    · exact ⟨j, mem_append_left _ hj, hhost, hnone⟩
    · obtain rfl | hj := mem_cons.mp hj
      · exact absurd ha (hgone a hhost hnone)
      · exact ⟨j, mem_append_right _ hj, hhost, hnone⟩
  case nodup => exact h.nodup.sublist hsub

/-- A service has gone. -/
theorem Refines.removeService (h : Refines avahi m w) {key : ServiceKey} (io : WriteIo)
    (hold : ∃ i ∈ w.instances, i.isFor avahi key = true) :
    ∃ m', removeService avahi key m = some (.ok (), m') ∧
      Refines avahi m' (w.told avahi (.remove key io)) := by
  obtain ⟨instances, count⟩ := w
  obtain ⟨i, hmem, hi⟩ := hold
  obtain ⟨l₁, l₂, rfl⟩ : ∃ l₁ l₂, instances = l₁ ++ i :: l₂ := append_of_mem hmem
  -- no other instance is for the service
  have hkeys := h.keys
  rw [pairwise_append, pairwise_cons] at hkeys
  obtain ⟨-, ⟨hkeys2, -⟩, hkeys1⟩ := hkeys
  have hother1 : ∀ j ∈ l₁, j.isFor avahi key = false := by
    refine fun j hj => Bool.eq_false_iff.mpr fun htrue => ?_
    exact Bool.eq_false_iff.mp (hkeys1 j hj i mem_cons_self) (Instance.isFor_of_isFor htrue hi)
  have hother2 : ∀ j ∈ l₂, j.isFor avahi key = false := by
    refine fun j hj => Bool.eq_false_iff.mpr fun htrue => ?_
    exact Bool.eq_false_iff.mp (hkeys2 j hj) (Instance.isFor_of_isFor hi htrue)
  have hfilter : (l₁ ++ i :: l₂).filter (fun i => !i.isFor avahi key) = l₁ ++ l₂ := by
    rw [filter_append, filter_cons_of_neg (by simp [hi]),
      filter_eq_self.mpr fun j hj => by simp [hother1 j hj],
      filter_eq_self.mpr fun j hj => by simp [hother2 j hj]]
  have hlist (l : List Instance) (hl : ∀ j ∈ l, j.isFor avahi key = false) :
      ∀ e ∈ l.filterMap Instance.entry, e.2.isFor avahi key = false := by
    intro e he
    obtain ⟨j, hj, hentry⟩ := mem_filterMap.mp he
    rw [(Instance.entry_eq_some_iff.mp hentry).2]
    exact hl j hj
  have hbelow := h.below_brk
  have hlinked := h.linked
  rw [Announced.told, hfilter]
  rw [Announced.hostList, filterMap_append, filterMap_cons] at hlinked hbelow
  cases hhost : i.host with
  | none =>
    have hentry : i.entry = none := by rw [Instance.entry, hhost, map_none]
    rw [hentry, ← filterMap_append] at hlinked hbelow
    refine ⟨m, removeService_of_not_mem hlinked hbelow (hlist _ ?_), ?_⟩
    · exact forall_mem_append.mpr ⟨hother1, hother2⟩
    · exact h.without hlinked (.refl _) (by simp [hhost])
  | some a =>
    have hentry : i.entry = some (a, i.toHost) := by rw [Instance.entry, hhost, map_some]
    rw [hentry] at hlinked hbelow
    obtain ⟨nodes, hosts, hrun, hlinked'⟩ :=
      removeService_of_mem hlinked hbelow (hlist l₁ hother1) (e := (a, i.toHost)) hi
    refine ⟨_, hrun, h.without ?_ ?_ ?_⟩
    · rwa [Announced.hostList, filterMap_append]
    · exact resolversWithout_sublist (a, i.toHost) _
    · intro b hb hnone
      obtain rfl : a = b := some.inj (hhost.symm.trans hb)
      have hresolver : i.toHost.resolver = true := by rw [Instance.toHost, hnone]; rfl
      rw [resolversWithout, if_pos hresolver]
      exact h.nodup.not_mem_erase

/-- With values for all CPUs, there is a number of CPUs. -/
theorem foldlM_cpusAfter {txt : Txt} (htxt : ∀ entry ∈ txt, entry ≠ some (lit "cpus", none))
    (n : ℤ) : ∃ n', txt.foldlM cpusAfter n = .ok n' := by
  induction txt generalizing n with
  | nil => exact ⟨n, rfl⟩
  | cons entry txt ih =>
    obtain ⟨hentry, hrest⟩ := forall_mem_cons.mp htxt
    obtain ⟨n₁, hn1⟩ : ∃ n₁, cpusAfter n entry = .ok n₁ := by
      unfold cpusAfter
      split
      · exact ⟨n, rfl⟩
      · case h_2 key value =>
        split
        · case isTrue hkey =>
          cases value with
          | none => exact absurd (by rw [hkey]) hentry
          | some value => exact ⟨_, rfl⟩
        · exact ⟨n, rfl⟩
    obtain ⟨n', hn'⟩ := ih hrest n₁
    exact ⟨n', by rw [foldlM_cons, hn1, Except.ok_bind, hn']⟩

/-- A host that is found is resolved, and the others stay as they are. -/
theorem Instance.entry_resolve {a : ℕ} {r : Resolution} {x : Host}
    (hx : i.host = some a → (i.resolve a r).toHost = x) :
    (i.resolve a r).entry = i.entry.map fun e => if e.1 = a then (a, x) else e := by
  rw [entry, entry]
  by_cases hhost : i.host = some a
  · have hhost' : (i.resolve a r).host = some a := by rw [resolve, if_pos hhost, hhost]
    rw [hhost', hhost, hx hhost, map_some, map_some, map_some, if_pos rfl]
  · rw [resolve, if_neg hhost]
    cases hother : i.host with
    | none => rfl
    | some b =>
      rw [map_some, map_some, if_neg]
      rintro rfl
      exact hhost hother

theorem Instance.resolve_key (a : ℕ) (r : Resolution) : (i.resolve a r).key = i.key := by
  unfold resolve
  split <;> rfl

theorem Instance.resolve_host (a : ℕ) (r : Resolution) : (i.resolve a r).host = i.host := by
  unfold resolve
  split <;> rfl

/-- What is written to the host that is found. -/
def Host.found (x : Host) (r : Resolution) : Host :=
  { x with address := some (r.address, r.port), nCpus := r.nCpus, resolver := false }

theorem Instance.resolve_toHost {a : ℕ} {r : Resolution} (hhost : i.host = some a) :
    (i.resolve a r).toHost = i.toHost.found r := by
  rw [resolve, if_pos hhost]
  rfl

/-- The host at an address is that of one instance only. -/
theorem Refines.toHost_eq (h : Refines avahi m w) {j : Instance} {a : ℕ} (hi : i ∈ w.instances)
    (hj : j ∈ w.instances) (hhost : i.host = some a) (hhost' : j.host = some a) :
    j.toHost = i.toHost := by
  have hmem : (a, i.toHost) ∈ w.hostList := Announced.mem_hostList.mpr ⟨i, hi, hhost, rfl⟩
  have hmem' : (a, j.toHost) ∈ w.hostList := Announced.mem_hostList.mpr ⟨j, hj, hhost', rfl⟩
  exact (Prod.mk.inj (inj_on_of_nodup_map h.linked.nodup hmem' hmem rfl)).2

/-- A resolver answers. -/
theorem Refines.found (h : Refines avahi m w) {a : ℕ} {address : AvahiAddress} {port : UInt16}
    {txt : Txt} {io : WriteIo} (hresolver : a ∈ m.vars.resolvers)
    (htxt : ∀ entry ∈ txt, entry ≠ some (lit "cpus", none)) :
    ∃ m', resolveFound avahi nSlots a address port txt io m =
        Zeroconf.writeHosts avahi nSlots io m' ∧
      Refines avahi m' (w.told avahi (.found a address port txt io)) := by
  obtain ⟨i, hi, hhost, hnone⟩ := h.resolvers a hresolver
  have hmem : (a, i.toHost) ∈ w.hostList := Announced.mem_hostList.mpr ⟨i, hi, hhost, rfl⟩
  obtain ⟨next, hnode⟩ := h.linked.node_of_mem hmem
  obtain ⟨n, hn⟩ := foldlM_cpusAfter htxt 1
  have hcpus : cpusOf txt = n := by rw [cpusOf, hn]
  have hn' : txt.foldlM cpusAfter i.toHost.nCpus = .ok n := by
    rw [Instance.toHost, hnone]
    exact hn
  set r : Resolution := ⟨address, port, n⟩ with hr
  refine ⟨⟨Function.update m.nodes a (some ⟨i.toHost.found r, next⟩), m.brk,
    ⟨m.vars.hosts, m.vars.file, m.vars.resolvers.erase a⟩⟩, ?_, ?_⟩
  · rw [resolveFound, bind_of_ok (load_eq hnode), hn']
    refine (bind_of_ok rfl).trans ((bind_of_ok (store_eq hnode _)).trans ?_)
    rw [assign_bind]
    refine (bind_of_ok (@store_eq _ _ ⟨_, m.brk, _⟩ a _ (Function.update_self ..) _)).trans ?_
    rw [Function.update_idem]
    rfl
  · rw [Announced.told, hcpus]
    constructor
    case brk => exact h.brk
    case linked =>
      have hentry : ∀ j ∈ w.instances, (j.resolve a r).entry =
          j.entry.map fun e => if e.1 = a then (a, i.toHost.found r) else e := by
        refine fun j hj => Instance.entry_resolve fun hhost' => ?_
        rw [Instance.resolve_toHost hhost', h.toHost_eq hi hj hhost hhost']
      have hset := h.linked.set_data hnode (i.toHost.found r)
      rw [Announced.hostList, map_filterMap] at hset
      rw [Announced.hostList, filterMap_map]
      exact (filterMap_congr hentry) ▸ hset
    case below =>
      refine forall_mem_map.mpr fun j hj => ?_
      rw [Instance.resolve_host]
      exact h.below j hj
    case keys =>
      refine pairwise_map.mpr (h.keys.imp fun {j j'} hne => ?_)
      rw [Instance.isFor, Instance.resolve_key, Instance.resolve_key]
      exact hne
    case resolvers =>
      intro b hb
      obtain ⟨hne, hb⟩ := h.nodup.mem_erase_iff.mp hb
      obtain ⟨j, hj, hhost', hnone'⟩ := h.resolvers b hb
      have hother : j.resolve a r = j := by
        rw [Instance.resolve, if_neg]
        exact fun heq => hne (some.inj (hhost'.symm.trans heq))
      exact ⟨j, mem_map.mpr ⟨j, hj, hother⟩, hhost', hnone'⟩
    case nodup => exact h.nodup.erase a

/-! ### Duplicates -/

theorem entry_keepFirst :
    (keepFirst seen l).filterMap Instance.entry = distinct seen (l.filterMap Instance.entry) := by
  induction l generalizing seen with
  | nil => rfl
  | cons i l ih =>
    obtain ⟨key, host, resolved⟩ := i
    cases host with
    | none => exact ih seen
    | some a =>
      have hentry : (Instance.mk key (some a) resolved).entry =
          some (a, (Instance.mk key (some a) resolved).toHost) := rfl
      rw [keepFirst, if_neg (by simp)]
      by_cases hseen : key.name ∈ seen
      · rw [if_pos hseen]
        simp only [filterMap_cons, hentry]
        exact (ih seen).trans (if_pos hseen).symm
      · rw [if_neg hseen]
        simp only [filterMap_cons, hentry]
        exact (congrArg (List.cons _) (ih _)).trans (if_neg hseen).symm

/-- What is announced, and what was found out, stays. -/
theorem map_keepFirst :
    (keepFirst seen l).map (fun i => (i.key, i.resolved)) = l.map fun i => (i.key, i.resolved) := by
  induction l generalizing seen with
  | nil => rfl
  | cons i l ih =>
    rw [keepFirst]
    split
    · exact congrArg (List.cons _) (ih seen)
    · split
      · exact congrArg (List.cons _) (ih seen)
      · exact congrArg (List.cons _) (ih _)

/-- **The hosts that are kept are the newest ones.** -/
theorem mem_keepFirst_iff {seen : List CString} {l : List Instance} (hhost : i.host.isSome) :
    i ∈ keepFirst seen l ↔
      i.key.name ∉ seen ∧ (l.find? fun j => j.host.isSome && j.key.name = i.key.name) = some i := by
  induction l generalizing seen with
  | nil => simp [keepFirst]
  | cons j l ih =>
    rw [keepFirst]
    by_cases hnone : j.host.isNone
    · have hne : i ≠ j := by
        rintro rfl
        simp [isNone_iff_eq_none.mp hnone] at hhost
      have hskip : (j.host.isSome && decide (j.key.name = i.key.name)) = false := by
        simp [isNone_iff_eq_none.mp hnone]
      rw [if_pos hnone, mem_cons, or_iff_right hne, ih,
        find?_cons_of_neg (by simp [hskip])]
    · have hsome : j.host.isSome = true :=
        isSome_iff_ne_none.mpr (mt isNone_iff_eq_none.mpr hnone)
      rw [if_neg hnone]
      by_cases hname : j.key.name = i.key.name
      · have hfind : ((j :: l).find? fun j => j.host.isSome && j.key.name = i.key.name) = some j :=
          find?_cons_of_pos (by simp [hsome, hname])
        rw [hfind, ← hname]
        by_cases hseen : j.key.name ∈ seen
        · rw [if_pos hseen]
          refine iff_of_false (fun hmem => ?_) fun h => h.1 hseen
          obtain rfl | hmem := mem_cons.mp hmem
          · exact Bool.false_ne_true hhost
          · exact (ih.mp hmem).1 (hname ▸ hseen)
        · rw [if_neg hseen, mem_cons, and_iff_right hseen]
          constructor
          · rintro (rfl | hmem)
            · rfl
            · exact absurd (hname ▸ mem_cons_self) (ih.mp hmem).1
          · rintro ⟨⟩
            exact .inl rfl
      · have hne : i ≠ j := by
          rintro rfl
          exact hname rfl
        have hfind : ((j :: l).find? fun j => j.host.isSome && j.key.name = i.key.name) =
            l.find? fun j => j.host.isSome && j.key.name = i.key.name :=
          find?_cons_of_neg (by simp [hname])
        rw [hfind]
        split
        · have hne' : i ≠ { j with host := none } := by
            rintro rfl
            exact Bool.false_ne_true hhost
          rw [mem_cons, or_iff_right hne', ih]
        · rw [mem_cons, or_iff_right hne, ih, mem_cons, or_iff_right (Ne.symm hname)]

/-- The hosts that are kept have different names. -/
theorem keepFirst_pairwise : (keepFirst seen l).Pairwise fun i j =>
      i.host.isSome → j.host.isSome → i.key.name ≠ j.key.name := by
  induction l generalizing seen with
  | nil => exact .nil
  | cons i l ih =>
    rw [keepFirst]
    by_cases hnone : i.host.isNone
    · rw [if_pos hnone]
      refine pairwise_cons.mpr ⟨fun j _ hsome => ?_, ih seen⟩
      simp [isNone_iff_eq_none.mp hnone] at hsome
    · rw [if_neg hnone]
      split
      · exact pairwise_cons.mpr ⟨fun j _ hsome => absurd hsome Bool.false_ne_true, ih seen⟩
      · refine pairwise_cons.mpr ⟨fun j hj _ hsome heq => ?_, ih _⟩
        exact ((mem_keepFirst_iff hsome).mp hj).1 (heq ▸ mem_cons_self)

theorem Announced.addresses (w : Announced) : ∀ e ∈ w.hostList, e.2.AddressSet := by
  intro e he hresolver
  obtain ⟨⟨key, host, resolved⟩, -, -, heq⟩ := Announced.mem_hostList.mp he
  rw [heq] at hresolver ⊢
  cases resolved with
  | none => exact absurd hresolver Bool.false_ne_true.symm
  | some r => rfl

/-- **Duplicates are freed.** -/
theorem Refines.frees (h : Refines avahi m w)
    (hlinked : Linked m'.nodes m'.vars.hosts (distinct [] w.hostList))
    (hfrees : Frees w.hostList (distinct [] w.hostList) m m') :
    Refines avahi m' w.withoutDuplicates := by
  have hlist : w.withoutDuplicates.hostList = distinct [] w.hostList := entry_keepFirst [] _
  constructor
  case brk => exact hfrees.brk.trans h.brk
  case linked => exact hlist ▸ hlinked
  case below =>
    intro i hi a ha
    have hnewest := (mem_keepFirst_iff (isSome_of_mem ha)).mp hi
    exact h.below i (mem_of_find?_eq_some hnewest.2) a ha
  case keys =>
    have hkeys : (w.instances.map fun i => (i.key, i.resolved)).Pairwise fun p q =>
        (Instance.mk p.1 none none).isFor avahi q.1 = false := pairwise_map.mpr h.keys
    rw [← map_keepFirst []] at hkeys
    exact pairwise_map.mp hkeys
  case resolvers =>
    intro a ha
    obtain ⟨i, hi, hhost, hnone⟩ := h.resolvers a (hfrees.resolvers.subset ha)
    have hmem : (a, i.toHost) ∈ w.hostList := Announced.mem_hostList.mpr ⟨i, hi, hhost, rfl⟩
    have hresolver : i.toHost.resolver = true := by
      rw [Instance.toHost, hnone]
      rfl
    have hleft : (a, i.toHost) ∈ w.withoutDuplicates.hostList := by
      rw [hlist]
      by_contra hne
      exact hfrees.closed h.nodup _ hmem hne hresolver ha
    obtain ⟨j, hj, hhost', heq⟩ := Announced.mem_hostList.mp hleft
    refine ⟨j, hj, hhost', isNone_iff_eq_none.mp ?_⟩
    exact (congrArg Host.resolver heq).symm.trans hresolver
  case nodup => exact h.nodup.sublist hfrees.resolvers

/-! ### Lines -/

theorem Announced.mem_lines {line : CString × Resolution} : line ∈ w.lines ↔
    ∃ i ∈ w.instances, i.host.isSome ∧ i.key.name = line.1 ∧ i.resolved = some line.2 := by
  obtain ⟨name, r⟩ := line
  rw [lines, mem_filterMap]
  constructor
  · rintro ⟨i, hi, hline⟩
    obtain ⟨hi, hhost⟩ := mem_filter.mp hi
    obtain ⟨r', hr, heq⟩ := map_eq_some_iff.mp hline
    obtain ⟨rfl, rfl⟩ := Prod.mk.inj heq
    exact ⟨i, hi, hhost, rfl, hr⟩
  · rintro ⟨i, hi, hhost, rfl, hr⟩
    exact ⟨i, mem_filter.mpr ⟨hi, hhost⟩, map_eq_some_iff.mpr ⟨r, hr, rfl⟩⟩

/-- What is written is what the hosts in memory have. -/
theorem Announced.resolution_hostList (w : Announced) :
    (w.hostList.filterMap fun e => e.2.resolution) = w.lines.map Prod.snd := by
  obtain ⟨instances, count⟩ := w
  rw [lines, hostList]
  induction instances with
  | nil => rfl
  | cons i l ih =>
    obtain ⟨key, host, resolved⟩ := i
    cases host with
    | none => exact ih
    | some a =>
      cases resolved with
      | none => exact ih
      | some r => exact congrArg (List.cons r) ih

/-- There are no two lines for a name. -/
theorem Announced.nodup_lines (w : Announced) : (w.withoutDuplicates.lines.map Prod.fst).Nodup := by
  rw [lines, List.Nodup, pairwise_map, pairwise_filterMap, pairwise_filter]
  refine (keepFirst_pairwise [] w.instances).imp fun {i j} hne hi hj line hline line' hline' => ?_
  obtain ⟨r, -, rfl⟩ := map_eq_some_iff.mp hline
  obtain ⟨r', -, rfl⟩ := map_eq_some_iff.mp hline'
  exact hne hi hj

/-- An instance that is announced is still announced. -/
theorem Announced.mem_withoutDuplicates (hi : i ∈ w.instances) :
    ∃ j ∈ w.withoutDuplicates.instances, j.key = i.key ∧ j.resolved = i.resolved := by
  have hmem := mem_map_of_mem (f := fun i => (i.key, i.resolved)) hi
  rw [← map_keepFirst []] at hmem
  obtain ⟨j, hj, heq⟩ := mem_map.mp hmem
  exact ⟨j, hj, Prod.mk.inj heq⟩

theorem Announced.mem_of_mem_withoutDuplicates (hi : i ∈ w.withoutDuplicates.instances) :
    ∃ j ∈ w.instances, j.key = i.key ∧ j.resolved = i.resolved := by
  have hmem := mem_map_of_mem (f := fun i => (i.key, i.resolved)) hi
  rw [withoutDuplicates, map_keepFirst] at hmem
  obtain ⟨j, hj, heq⟩ := mem_map.mp hmem
  exact ⟨j, hj, Prod.mk.inj heq⟩

/-- There is a line for a name if the newest host is resolved. -/
theorem Announced.mem_lines_iff {name : CString} :
    name ∈ w.withoutDuplicates.lines.map Prod.fst ↔
      ((w.newest name).bind Instance.resolved).isSome := by
  constructor
  · intro hname
    obtain ⟨line, hline, rfl⟩ := mem_map.mp hname
    obtain ⟨i, hi, hhost, hname, hr⟩ := Announced.mem_lines.mp hline
    have hnewest : w.newest line.1 = some i := hname ▸ ((mem_keepFirst_iff hhost).mp hi).2
    rw [hnewest, bind_some, hr]
    rfl
  · intro hsome
    obtain ⟨r, hr⟩ := isSome_iff_exists.mp hsome
    obtain ⟨i, hnewest, hresolved⟩ := bind_eq_some_iff.mp hr
    have hi : i.host.isSome ∧ i.key.name = name := by
      have hfound := find?_some hnewest
      simpa using hfound
    obtain ⟨hhost, rfl⟩ := hi
    refine mem_map.mpr ⟨(i.key.name, r), ?_, rfl⟩
    refine Announced.mem_lines.mpr ⟨i, ?_, hhost, rfl, hresolved⟩
    exact (mem_keepFirst_iff hhost).mpr ⟨not_mem_nil, hnewest⟩

/-- Every line ends with the only newline that is in it. -/
theorem count_newline_hostsText (h : ∀ r ∈ rs, IsInt (nSlots * r.nCpus)) :
    (hostsText avahi nSlots rs).count '\n'.toUInt8 = rs.length := by
  have hline : ∀ r ∈ rs, (List.count '\n'.toUInt8 ∘ hostLine avahi nSlots) r = 1 := by
    intro r hr
    obtain ⟨hlo, hhi⟩ := h r hr
    have hlen : (decimal (nSlots * r.nCpus)).length ≤ 11 := by
      have habs : (natDecimal (nSlots * r.nCpus).natAbs).length ≤ 10 :=
        length_natDecimal_le (by decide) (by omega)
      unfold decimal
      split
      · exact Nat.succ_le_succ habs
      · exact Nat.le_succ_of_le habs
    rw [Function.comp, hostLine_of_length_le hlen, count_append,
      count_eq_zero_of_not_mem (newline_notMem_text avahi nSlots r)]
    rfl
  rw [hostsText, count_flatMap, map_congr_left (g := fun _ => 1) hline]
  simp

/-- **The file is exact if the newest hosts are resolved.** -/
theorem fileExact_iff (hfit : ∀ line ∈ w.withoutDuplicates.lines, IsInt (nSlots * line.2.nCpus)) :
    FileExact avahi nSlots w.withoutDuplicates
        (hostsText avahi nSlots (w.withoutDuplicates.lines.map Prod.snd)) ↔ w.NewestResolved := by
  constructor
  · rintro ⟨lines, hfile, hnodup, hlines, hcover⟩ i hi hresolved
    -- as many lines as there are services, and all of them for services
    have hlength : lines.length = w.withoutDuplicates.lines.length := by
      have hcount := congrArg (List.count '\n'.toUInt8) hfile
      rw [count_newline_hostsText, count_newline_hostsText, length_map,
        length_map] at hcount
      · exact hcount.symm
      · exact forall_mem_map.mpr fun line hline => (hlines line hline).1
      · exact forall_mem_map.mpr hfit
    have hsub : w.withoutDuplicates.lines.map Prod.fst ⊆ lines.map Prod.fst := by
      intro name hname
      obtain ⟨line, hline, rfl⟩ := mem_map.mp hname
      obtain ⟨j, hj, -, hname, hr⟩ := Announced.mem_lines.mp hline
      exact hname ▸ hcover j hj (isSome_of_mem hr)
    have hperm := (subperm_of_subset w.nodup_lines hsub).perm_of_length_le
      (by rw [length_map, length_map, hlength])
    obtain ⟨j, hj, hkey, hr⟩ := Announced.mem_withoutDuplicates hi
    rw [← Announced.mem_lines_iff, hperm.mem_iff, ← hkey]
    exact hcover j hj (hr ▸ hresolved)
  · intro hnewest
    refine ⟨_, rfl, w.nodup_lines, fun line hline => ⟨hfit line hline, ?_⟩,
      fun i hi hresolved => ?_⟩
    · obtain ⟨i, hi, -, hname, hr⟩ := Announced.mem_lines.mp hline
      exact ⟨i, hi, hname, hr⟩
    · obtain ⟨j, hj, hkey, hr⟩ := Announced.mem_of_mem_withoutDuplicates hi
      rw [Announced.mem_lines_iff, ← hkey]
      exact hnewest j hj (hr ▸ hresolved)

/-- When every line is written, all numbers of slots are looked at. -/
theorem SlotsWritable.forall {io : WriteIo} {line : ℕ}
    (h : SlotsWritable nSlots io line rs) (hall : ∀ line, io.writes line = true) :
    ∀ r ∈ rs, IsInt (nSlots * r.nCpus) := by
  induction rs generalizing line with
  | nil => exact fun r hr => nomatch hr
  | cons r rs ih => exact forall_mem_cons.mpr ⟨h.1, ih (h.2 (hall line))⟩

/-! ### Events -/

/-- `write_hosts` leaves the hosts that are not duplicates, and it does so without a fault and
with the right file when it may be called. -/
theorem Refines.writeHosts (h : Refines avahi m w) (io : WriteIo) :
    ∃ result m', writeHosts avahi nSlots io m = some (result, m') ∧
      Refines avahi m' (w.written io) ∧
      ((result = .ok () ∧ (io.Opens → (∀ line, io.writes line = true) →
        FileExact avahi nSlots (w.written io) m'.vars.file)) ↔ w.WrittenWell nSlots io) := by
  rw [Announced.written, Announced.WrittenWell]
  by_cases hopens : io.Opens
  · obtain ⟨result, m', file, hrun, hlinked, hfrees, hresult, hfile⟩ :=
      @writeHosts_spec avahi nSlots m _ io hopens h.linked h.below_brk w.addresses
    have hlines : ((distinct [] w.hostList).filterMap fun e => e.2.resolution) =
        w.withoutDuplicates.lines.map Prod.snd := by
      rw [← Announced.resolution_hostList]
      exact congrArg _ (entry_keepFirst [] w.instances).symm
    rw [hlines] at hresult hfile
    rw [if_pos hopens]
    refine ⟨result, Zeroconf.withFile m' file, hrun,
      ((h.withFile []).frees hlinked hfrees).withFile file, ?_⟩
    rw [imp_iff_right hopens, imp_iff_right hopens, hresult]
    refine and_congr_right fun hslots => forall_congr' fun hall => ?_
    have hfit : ∀ line ∈ w.withoutDuplicates.lines, IsInt (nSlots * line.2.nCpus) :=
      fun line hline => hslots.forall hall _ (mem_map_of_mem hline)
    rw [← @fileExact_iff avahi nSlots w hfit, ← hfile (hresult.mpr hslots) hall]
    rfl
  · rw [if_neg hopens]
    refine ⟨.ok (), m, by rw [Zeroconf.writeHosts, if_neg hopens]; rfl, h, ?_⟩
    exact iff_of_true ⟨rfl, fun h => absurd h hopens⟩ fun h => absurd h hopens

/-- What is left to do is to write the file. -/
theorem Refines.handledWell_iff_writtenWell {io : WriteIo}
    (h : Refines avahi m' (w.told avahi e)) (hio : e.io = some io)
    (hrun : handle avahi nSlots e m = Zeroconf.writeHosts avahi nSlots io m') :
    HandledWell avahi nSlots m w e ↔ (w.told avahi e).WrittenWell nSlots io := by
  obtain ⟨result, m'', hwrite, hrefines, hiff⟩ := h.writeHosts io
  have hafter : w.after avahi e = (w.told avahi e).written io := by rw [Announced.after, hio]
  rw [← hiff, HandledWell, hrun, hwrite, hafter]
  constructor
  · rintro ⟨m₁, hrun', -, hfile⟩
    obtain ⟨rfl, rfl⟩ := Prod.mk.inj (some.inj hrun')
    exact ⟨rfl, fun hopens hall => hfile ⟨io, hio, hopens, hall⟩⟩
  · rintro ⟨rfl, hfile⟩
    refine ⟨m'', rfl, ⟨_, hrefines.linked⟩, ?_⟩
    rintro ⟨io', hio', hopens, hall⟩
    obtain rfl := some.inj (hio.symm.trans hio')
    exact hfile hopens hall

/-- Without a value for the number of CPUs there is a fault. -/
theorem foldlM_cpusAfter_error {txt : Txt} (htxt : some (lit "cpus", none) ∈ txt) (n : ℤ) :
    ∃ fault, txt.foldlM cpusAfter n = .error fault := by
  induction txt generalizing n with
  | nil => cases htxt
  | cons entry txt ih =>
    rw [foldlM_cons]
    cases hentry : cpusAfter n entry with
    | error fault => exact ⟨fault, rfl⟩
    | ok n' =>
      obtain rfl | htxt := mem_cons.mp htxt
      · cases hentry
      · exact ih htxt n'

/-- **An event is handled as it should be if the condition holds.** -/
theorem Refines.handledWell_iff_careful (h : Refines avahi m w)
    (hdeliver : Deliverable avahi w m e) :
    HandledWell avahi nSlots m w e ↔ Careful avahi nSlots w e := by
  cases e with
  | new key created =>
    obtain ⟨m', hrun, hrefines⟩ := @Refines.browseNew avahi m w h key created hdeliver
    refine iff_of_true ⟨m', hrun, ⟨_, hrefines.linked⟩, ?_⟩ trivial
    rintro ⟨io, hio, -⟩
    cases hio
  | remove key io =>
    obtain ⟨m', hrun, hrefines⟩ := h.removeService io hdeliver
    exact hrefines.handledWell_iff_writtenWell rfl (bind_of_ok hrun)
  | found a address port txt io =>
    by_cases htxt : some (lit "cpus", none) ∈ txt
    · obtain ⟨i, hi, hhost, -⟩ := h.resolvers a hdeliver
      obtain ⟨next, hnode⟩ := h.linked.node_of_mem
        (Announced.mem_hostList.mpr ⟨i, hi, hhost, rfl⟩ : (a, i.toHost) ∈ w.hostList)
      obtain ⟨fault, hfault⟩ := foldlM_cpusAfter_error htxt i.toHost.nCpus
      have hrun : handle avahi nSlots (.found a address port txt io) m =
          some (.error fault, m) := by
        rw [handle, resolveFound, bind_of_ok (load_eq hnode), hfault]
        exact bind_of_error rfl
      refine iff_of_false ?_ fun hcareful => hcareful.1 _ htxt rfl
      rintro ⟨m', hrun', -⟩
      cases hrun.symm.trans hrun'
    · have htxt' : ∀ entry ∈ txt, entry ≠ some (lit "cpus", none) :=
        fun entry hentry heq => htxt (heq ▸ hentry)
      obtain ⟨m', hrun, hrefines⟩ := @Refines.found avahi nSlots m w h a address port txt io
        hdeliver htxt'
      rw [Careful, and_iff_right htxt']
      exact hrefines.handledWell_iff_writtenWell rfl hrun
  | failure a =>
    obtain ⟨i, hi, hhost, -⟩ := h.resolvers a hdeliver
    have hmem : (a, i.toHost) ∈ w.hostList := Announced.mem_hostList.mpr ⟨i, hi, hhost, rfl⟩
    obtain ⟨next, hnode⟩ := h.linked.node_of_mem hmem
    refine iff_of_false ?_ id
    rintro ⟨m', hrun, ⟨l, hlinked⟩, -⟩
    have hfree := @freeHost_eq m (a, i.toHost) next hnode
    obtain ⟨-, rfl⟩ := Prod.mk.inj (some.inj (hrun.symm.trans hfree))
    exact h.linked.not_linked_freed hmem l hlinked

/-- **The list stays what is announced** while the condition holds. -/
theorem Refines.handle (h : Refines avahi m w) (hdeliver : Deliverable avahi w m e)
    (hcareful : Careful avahi nSlots w e) (hhandle : handle avahi nSlots e m = some (.ok (), m')) :
    Refines avahi m' (w.after avahi e) := by
  -- what `write_hosts` leaves, when it is called last
  have hlast {m₁ : DaemonMemory} {io : WriteIo} (hrefines : Refines avahi m₁ (w.told avahi e))
      (hrun : Zeroconf.handle avahi nSlots e m = Zeroconf.writeHosts avahi nSlots io m₁) :
      Refines avahi m' ((w.told avahi e).written io) := by
    obtain ⟨result, m₂, hwrite, hrefines, -⟩ := @Refines.writeHosts avahi nSlots m₁ _ hrefines io
    rw [hrun, hwrite] at hhandle
    obtain ⟨-, rfl⟩ := Prod.mk.inj (some.inj hhandle)
    exact hrefines
  cases e with
  | new key created =>
    obtain ⟨m₁, hrun, hrefines⟩ := @Refines.browseNew avahi m w h key created hdeliver
    obtain ⟨-, rfl⟩ := Prod.mk.inj (some.inj (hrun.symm.trans hhandle))
    exact hrefines
  | remove key io =>
    obtain ⟨m₁, hrun, hrefines⟩ := h.removeService io hdeliver
    exact hlast hrefines (bind_of_ok hrun)
  | found a address port txt io =>
    obtain ⟨m₁, hrun, hrefines⟩ := @Refines.found avahi nSlots m w h a address port txt io
      hdeliver hcareful.1
    exact hlast hrefines hrun
  | failure a => exact hcareful.elim

theorem Reaches.refines (h : Reaches avahi nSlots (Careful avahi nSlots) m w) :
    Refines avahi m w := by
  induction h with
  | start => exact start_refines
  | step _ hdeliver hcareful hhandle ih => exact ih.handle hdeliver hcareful hhandle

/-- **The host list of the daemon**: as long as the condition holds, an event leaves a list of
allocated hosts and an exact file if, and only if, the condition holds for it, too. -/
theorem handledWell_iff {e : Event} (hrun : Reaches avahi nSlots (Careful avahi nSlots) m w)
    (hdeliver : Deliverable avahi w m e) :
    HandledWell avahi nSlots m w e ↔ Careful avahi nSlots w e :=
  hrun.refines.handledWell_iff_careful hdeliver

end Steps

/-- A service that is announced on an interface. -/
def serviceOn (interface : ℤ) : ServiceKey := ⟨interface, 0, lit "distcc@host", lit "local"⟩

/-- The service is announced on two interfaces, and the newer host is found: the other one is
freed, and there is one line. -/
theorem handledWell_iff_twoInterfaces : ∃ m w, w.instances.map Instance.host = [some 1, some 0] ∧
    Reaches .simple 4 (Careful .simple 4) m w ∧
    HandledWell .simple 4 m w (.found 1 (.inet 10 0 0 7) 3632 [] {}) := by
  have hrun1 : Reaches .simple 4 (Careful .simple 4) _ _ :=
    .step (e := .new (serviceOn 1) true) .start (forall_mem_nil _) trivial rfl
  have hrun2 : Reaches .simple 4 (Careful .simple 4) _ _ :=
    .step (e := .new (serviceOn 2) true) hrun1 (forall_mem_singleton.mpr rfl) trivial rfl
  refine ⟨_, _, rfl, hrun2, (handledWell_iff hrun2 (mem_cons_self)).mpr ⟨nofun, fun _ => ?_⟩⟩
  exact ⟨⟨by decide, fun _ => trivial⟩, fun _ => by decide⟩

/-- **A resolver fails**, and its host stays in the list though it is freed. -/
theorem failure_dangles : ∃ m w m', Reaches .simple 4 (fun _ _ => True) m w ∧
    Deliverable .simple w m (.failure 0) ∧
    handle .simple 4 (.failure 0) m = some (.ok (), m') ∧ ¬ AllAllocated m' := by
  have hrun : Reaches .simple 4 (fun _ _ => True) _ _ :=
    .step (e := .new (serviceOn 1) true) .start (forall_mem_nil _) trivial rfl
  refine ⟨_, _, _, hrun, mem_cons_self, rfl, ?_⟩
  rintro ⟨l, hlinked⟩
  have hone : Linked (Function.update (fun _ => none) 0 _) (some 0)
      [(0, (Instance.mk (serviceOn 1) (some 0) none).toHost)] :=
    ⟨rfl, none, rfl, rfl⟩
  exact hone.not_linked_freed (mem_singleton_self _) l hlinked

end Distcc.Zeroconf
