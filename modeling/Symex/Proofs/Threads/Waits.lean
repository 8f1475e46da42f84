import Mathlib.Data.List.Nodup
import Symex.State.Basic
import Symex.Proofs.Endings

namespace Symex

open Checked

def Thread.mark (t : Thread) : ThreadId × Bool × Option WaitListId := (t.id, t.enabled, t.waitingOn)

namespace State

variable {s s' s'' : State} {t : Thread} {id : ThreadId} {list : WaitListId}

def threadIds (s : State) : List ThreadId := s.threads.map (·.id)

/-- All three records of waiting agree. -/
structure WaitsAgree (s : State) : Prop where
  ids : s.threadIds.Pairwise (· < ·)
  id_lt : ∀ id ∈ s.threadIds, id < s.nextThreadId
  disabled_iff : ∀ t ∈ s.threads, t.enabled = false ↔ ∃ list, t.waitingOn = some list
  waiting_iff : ∀ t ∈ s.threads, ∀ list, t.waitingOn = some list ↔ t.id ∈ s.sleepers list
  sleepers : ∀ list, ∀ id ∈ s.sleepers list, id ∈ s.threadIds
  sorted : ∀ list, (s.sleepers list).Pairwise (· < ·)

theorem WaitsAgree.eq_of_mem {list' : WaitListId} (h : s.WaitsAgree) (hid : id ∈ s.sleepers list)
    (hid' : id ∈ s.sleepers list') : list = list' := by
  obtain ⟨t, ht, rfl⟩ := List.mem_map.1 (h.sleepers list id hid)
  have hlist := (h.waiting_iff t ht list).2 hid
  have hlist' := (h.waiting_iff t ht list').2 hid'
  exact Option.some.inj (hlist.symm.trans hlist')

theorem WaitsAgree.eq_of_id_eq (h : s.WaitsAgree) {u : Thread} (ht : t ∈ s.threads) (hu : u ∈ s.threads)
    (hid : t.id = u.id) : t = u :=
  List.inj_on_of_nodup_map (h.ids.imp Nat.ne_of_lt) ht hu hid

theorem WaitsAgree.not_mem_of_enabled (h : s.WaitsAgree) (ht : t ∈ s.threads) (henabled : t.enabled = true) :
    t.id ∉ s.sleepers list := fun hmem ↦ by
  have hdisabled := (h.disabled_iff t ht).2 ⟨list, (h.waiting_iff t ht list).2 hmem⟩
  rw [henabled] at hdisabled
  cases hdisabled

/-- Nothing is said of waiting in `s'` that was not said in `s`. -/
structure SameWaits (s s' : State) : Prop where
  marks : s'.threads.map Thread.mark = s.threads.map Thread.mark
  nextThreadId_eq : s'.nextThreadId = s.nextThreadId
  waitLists_eq : s'.waitLists = s.waitLists

theorem SameWaits.refl (s : State) : s.SameWaits s := ⟨rfl, rfl, rfl⟩

theorem SameWaits.threadIds_eq (h : s.SameWaits s') : s'.threadIds = s.threadIds := by
  have hids := congrArg (List.map Prod.fst) h.marks
  rwa [List.map_map, List.map_map] at hids

theorem SameWaits.sleepers_eq (h : s.SameWaits s') : s'.sleepers = s.sleepers := by
  funext list
  rw [State.sleepers, State.sleepers, h.waitLists_eq]

theorem SameWaits.exists_mark (h : s.SameWaits s') (ht : t ∈ s'.threads) : ∃ u ∈ s.threads, u.mark = t.mark :=
  List.mem_map.1 (h.marks ▸ List.mem_map_of_mem ht)

theorem SameWaits.waitsAgree (h : s.SameWaits s') (hs : s.WaitsAgree) : s'.WaitsAgree where
  ids := h.threadIds_eq ▸ hs.ids
  id_lt id hid := by
    rw [h.nextThreadId_eq]
    exact hs.id_lt id (h.threadIds_eq ▸ hid)
  disabled_iff t ht := by
    obtain ⟨u, hu, hmark⟩ := h.exists_mark ht
    obtain ⟨-, henabled, hwaiting⟩ := by simpa [Thread.mark] using hmark
    rw [← henabled, ← hwaiting]
    exact hs.disabled_iff u hu
  waiting_iff t ht list := by
    obtain ⟨u, hu, hmark⟩ := h.exists_mark ht
    obtain ⟨hid, -, hwaiting⟩ := by simpa [Thread.mark] using hmark
    rw [← hid, ← hwaiting, h.sleepers_eq]
    exact hs.waiting_iff u hu list
  sleepers list id hid := h.threadIds_eq ▸ hs.sleepers list id (h.sleepers_eq ▸ hid)
  sorted list := h.sleepers_eq ▸ hs.sorted list

/-- Ids that were given out by `s` name the same threads in `s'`, if they name one. -/
structure Later (s s' : State) : Prop where
  nextThreadId_le : s.nextThreadId ≤ s'.nextThreadId
  threadIds : ∀ id ∈ s'.threadIds, id < s.nextThreadId → id ∈ s.threadIds

theorem Later.refl (s : State) : s.Later s := ⟨Nat.le_refl _, fun _ h _ ↦ h⟩

theorem Later.trans (h : s.Later s') (h' : s'.Later s'') : s.Later s'' where
  nextThreadId_le := Nat.le_trans h.nextThreadId_le h'.nextThreadId_le
  threadIds id hid hlt :=
    h.threadIds id (h'.threadIds id hid (Nat.lt_of_lt_of_le hlt h.nextThreadId_le)) hlt

/-- The state goes on to `s'`, where the records agree. -/
structure Advances (s s' : State) : Prop where
  waitsAgree : s'.WaitsAgree
  later : s.Later s'
  id_eq : s'.id = s.id

theorem Advances.trans (h : s.Advances s') (h' : s'.Advances s'') : s.Advances s'' :=
  ⟨h'.waitsAgree, h.later.trans h'.later, h'.id_eq.trans h.id_eq⟩

theorem SameWaits.later (h : s.SameWaits s') : s.Later s' where
  nextThreadId_le := Nat.le_of_eq h.nextThreadId_eq.symm
  threadIds _ hid _ := h.threadIds_eq ▸ hid

theorem SameWaits.advances (h : s.SameWaits s') (hs : s.WaitsAgree) (hid : s'.id = s.id) : s.Advances s' :=
  ⟨h.waitsAgree hs, h.later, hid⟩

theorem WaitsAgree.advances (h : s.WaitsAgree) : s.Advances s := (SameWaits.refl s).advances h rfl

/-! ## Starts and ends of threads -/

theorem waitsAgree_start (id : StateId) (function : FunctionId) (registers : Nat) :
    (State.start id function registers).WaitsAgree := by
  have hsleepers (list : WaitListId) : (State.start id function registers).sleepers list = [] := rfl
  constructor
  · exact List.pairwise_singleton _ _
  · exact List.forall_mem_singleton.2 Nat.zero_lt_one
  · exact List.forall_mem_singleton.2 ⟨nofun, nofun⟩
  · exact List.forall_mem_singleton.2 fun list ↦ ⟨nofun, fun h ↦ (nomatch hsleepers list ▸ h)⟩
  · exact fun list id h ↦ (nomatch hsleepers list ▸ h)
  · exact fun list ↦ hsleepers list ▸ List.Pairwise.nil

theorem WaitsAgree.createThread (h : s.WaitsAgree) (function : FunctionId) (registers : Nat) :
    s.Advances (s.createThread function registers).2 := by
  have hids : (s.createThread function registers).2.threadIds = s.threadIds ++ [s.nextThreadId] := by
    simp [threadIds, State.createThread, Thread.start]
  have hfresh (list : WaitListId) : s.nextThreadId ∉ s.sleepers list := fun hmem ↦
    Nat.lt_irrefl _ (h.id_lt _ (h.sleepers list _ hmem))
  refine ⟨?_, ⟨Nat.le_succ _, fun id hid hlt ↦ ?_⟩, rfl⟩
  swap
  · rw [hids, List.mem_append, List.mem_singleton] at hid
    exact hid.resolve_right (Nat.ne_of_lt hlt)
  constructor
  · rw [hids, List.pairwise_append]
    exact ⟨h.ids, List.pairwise_singleton _ _, fun id hid _ hnew ↦ List.mem_singleton.1 hnew ▸ h.id_lt id hid⟩
  · intro id hid
    rw [hids, List.mem_append, List.mem_singleton] at hid
    obtain hid | rfl := hid
    · exact Nat.lt_succ_of_lt (h.id_lt id hid)
    · exact Nat.lt_succ_self _
  · intro t ht
    obtain ht | ht := List.mem_append.1 ht
    · exact h.disabled_iff t ht
    · obtain rfl := List.mem_singleton.1 ht
      exact ⟨nofun, nofun⟩
  · intro t ht list
    obtain ht | ht := List.mem_append.1 ht
    · exact h.waiting_iff t ht list
    · obtain rfl := List.mem_singleton.1 ht
      exact ⟨nofun, fun hmem ↦ (hfresh list hmem).elim⟩
  · intro list id hid
    rw [hids]
    exact List.mem_append_left _ (h.sleepers list id hid)
  · exact h.sorted

theorem WaitsAgree.unbindAll (h : s.WaitsAgree) (objects : List MemoryObject) :
    Ends (fun _ ↦ True) (s.unbindAll objects) s.Advances :=
  ends_bind (P := fun _ ↦ True) (ends_true_iff.2 fun _ _ ↦ trivial) fun _ _ ↦
    ends_pure (SameWaits.advances ⟨rfl, rfl, rfl⟩ h rfl)

theorem WaitsAgree.terminateThread (h : s.WaitsAgree) (id : ThreadId) :
    Ends (fun _ ↦ True) (s.terminateThread id) s.Advances := by
  unfold State.terminateThread
  split
  · exact ends_pure h.advances
  · rename_i t _
    generalize hrest : ({ s with
      threads := s.threads.filter (·.id ≠ id)
      exitedAt := if id = s.current then some t.prevPc else s.exitedAt
      waitLists := s.waitLists.map fun _ sleepers ↦ sleepers.filter (· ≠ id) } : State) = rest
    have hids : rest.threadIds = s.threadIds.filter (· ≠ id) := by
      rw [← hrest, threadIds, threadIds, List.filter_map]
      rfl
    have hsleepers (list : WaitListId) : rest.sleepers list = (s.sleepers list).filter (· ≠ id) := by
      rw [← hrest, State.sleepers, State.sleepers, Std.TreeMap.getD_eq_getD_getElem?, Std.TreeMap.getElem?_map,
        Std.TreeMap.getD_eq_getD_getElem?]
      cases s.waitLists[list]? <;> rfl
    have hthreads : ∀ t ∈ rest.threads, t ∈ s.threads ∧ t.id ≠ id := by
      rw [← hrest]
      intro t ht
      simpa using List.mem_filter.1 ht
    have hagree : rest.WaitsAgree := by
      constructor
      · exact hids ▸ h.ids.filter _
      · intro id' hid'
        rw [hids] at hid'
        rw [← hrest]
        exact h.id_lt id' (List.mem_filter.1 hid').1
      · exact fun t ht ↦ h.disabled_iff t (hthreads t ht).1
      · intro t ht list
        obtain ⟨ht, hne⟩ := hthreads t ht
        rw [h.waiting_iff t ht list, hsleepers, List.mem_filter]
        exact ⟨fun hmem ↦ ⟨hmem, by simpa using hne⟩, And.left⟩
      · intro list id' hid'
        rw [hsleepers, List.mem_filter] at hid'
        rw [hids]
        exact List.mem_filter.2 ⟨h.sleepers list id' hid'.1, hid'.2⟩
      · exact fun list ↦ hsleepers list ▸ (h.sorted list).filter _
    have hlater : s.Later rest := by
      refine ⟨Nat.le_of_eq (hrest ▸ rfl), fun id' hid' _ ↦ ?_⟩
      rw [hids] at hid'
      exact (List.mem_filter.1 hid').1
    have hadvances : s.Advances rest := ⟨hagree, hlater, hrest ▸ rfl⟩
    exact (hagree.unbindAll _).mono fun s' hs' ↦ hadvances.trans hs'

/-! ## Registers -/

theorem WaitsAgree.setThread {u : Thread} (h : s.WaitsAgree) (ht : t ∈ s.threads) (hu : u.mark = t.mark) :
    s.Advances (s.setThread u) := by
  refine SameWaits.advances ⟨?_, rfl, rfl⟩ h rfl
  rw [State.setThread, List.map_map]
  refine List.map_congr_left fun v hv ↦ ?_
  dsimp only [Function.comp]
  split
  · rename_i hid
    rw [hu, h.eq_of_id_eq hv ht (hid.trans (congrArg Prod.fst hu))]
  · rfl

theorem mark_modifyFrame (t : Thread) (f : Frame → Checked Frame) :
    Ends (fun _ ↦ True) (t.modifyFrame f) fun u ↦ u.mark = t.mark := by
  unfold Thread.modifyFrame
  split
  · exact ends_throw trivial
  · exact ends_bind (P := fun _ ↦ True) (ends_true_iff.2 fun _ _ ↦ trivial) fun _ _ ↦ ends_pure rfl

theorem WaitsAgree.write (h : s.WaitsAgree) (r : Register) (value : Expr) :
    Ends (fun _ ↦ True) (s.write r value) s.Advances :=
  ends_bind (ends_ofOption trivial fun _ ht ↦ List.mem_of_find?_eq_some ht) fun t ht ↦
    ends_bind (mark_modifyFrame t _) fun _ hu ↦ ends_pure (h.setThread ht hu)

/-! ## Sleep -/

theorem mem_insertSorted {id' : ThreadId} {l : List ThreadId} : id' ∈ insertSorted id l ↔ id' = id ∨ id' ∈ l := by
  induction l with
  | nil => simp [insertSorted]
  | cons x l ih =>
    unfold insertSorted
    split
    · rw [List.mem_cons]
    · split
      · rename_i heq
        simp [heq]
      · rw [List.mem_cons, ih, List.mem_cons]
        exact or_left_comm

theorem pairwise_insertSorted {l : List ThreadId} (h : l.Pairwise (· < ·)) :
    (insertSorted id l).Pairwise (· < ·) := by
  induction l with
  | nil => exact List.pairwise_singleton _ _
  | cons x l ih =>
    obtain ⟨hx, hl⟩ := List.pairwise_cons.1 h
    unfold insertSorted
    split
    · rename_i hlt
      exact List.pairwise_cons.2 ⟨List.forall_mem_cons.2 ⟨hlt, fun y hy ↦ Nat.lt_trans hlt (hx y hy)⟩, h⟩
    · rename_i hnlt
      split
      · exact h
      · rename_i hne
        refine List.pairwise_cons.2 ⟨fun y hy ↦ ?_, ih hl⟩
        obtain rfl | hy := mem_insertSorted.1 hy
        · exact Nat.lt_of_le_of_ne (Nat.le_of_not_lt hnlt) (Ne.symm hne)
        · exact hx y hy

theorem WaitsAgree.sleep (h : s.WaitsAgree) (ht : s.thread? s.current = some t) (henabled : t.enabled = true)
    (list : WaitListId) : ∃ s', s.sleep list = .ok s' ∧ s.Advances s' := by
  have hmem : t ∈ s.threads := List.mem_of_find?_eq_some ht
  have hid : t.id = s.current := by simpa using List.find?_some ht
  generalize hslept : ({ s.setThread (t.sleepOn list) with
    waitLists := s.waitLists.insert list (insertSorted s.current (s.sleepers list)) } : State) = s'
  have hthreads : ∀ u ∈ s'.threads, u = t.sleepOn list ∨ u ∈ s.threads ∧ u.id ≠ s.current := by
    rw [← hslept]
    intro u hu
    obtain ⟨v, hv, rfl⟩ := List.mem_map.1 hu
    split
    · exact .inl rfl
    · rename_i hne
      exact .inr ⟨hv, fun heq ↦ hne (heq.trans hid.symm)⟩
  have hids : s'.threadIds = s.threadIds := by
    rw [← hslept, threadIds, threadIds, State.setThread, List.map_map]
    refine List.map_congr_left fun u _ ↦ ?_
    dsimp only [Function.comp]
    split
    · rename_i heq
      exact heq.symm
    · rfl
  have hsleepers (list' : WaitListId) : s'.sleepers list' =
      if list = list' then insertSorted s.current (s.sleepers list) else s.sleepers list' := by
    rw [← hslept, State.sleepers, Std.TreeMap.getD_insert]
    simp only [Std.compare_eq_iff_eq]
    rfl
  have hawake (list' : WaitListId) : s.current ∉ s.sleepers list' := hid ▸ h.not_mem_of_enabled hmem henabled
  refine ⟨s', ?_, ?_, ⟨Nat.le_of_eq (hslept ▸ rfl), fun id hid' _ ↦ hids ▸ hid'⟩, hslept ▸ rfl⟩
  · rw [State.sleep, modifyThread, thread, ht, ← hslept]
    rfl
  · constructor
    · exact hids ▸ h.ids
    · intro id hid'
      rw [← hslept]
      exact h.id_lt id (hids ▸ hid')
    · intro u hu
      obtain rfl | ⟨hu, -⟩ := hthreads u hu
      · exact ⟨fun _ ↦ ⟨list, rfl⟩, fun _ ↦ rfl⟩
      · exact h.disabled_iff u hu
    · intro u hu list'
      rw [hsleepers]
      obtain rfl | ⟨hu, hne⟩ := hthreads u hu
      · change some list = some list' ↔ t.id ∈ _
        rw [hid, Option.some.injEq]
        split
        · rename_i heq
          exact iff_of_true heq (mem_insertSorted.2 (.inl rfl))
        · rename_i hne
          exact iff_of_false hne (hawake list')
      · rw [h.waiting_iff u hu list']
        split
        · rename_i heq
          rw [mem_insertSorted, heq]
          exact ⟨.inr, fun hmem ↦ hmem.resolve_left hne⟩
        · rfl
    · intro list' id' hid'
      rw [hsleepers] at hid'
      rw [hids]
      split at hid'
      · obtain rfl | hid' := mem_insertSorted.1 hid'
        · exact List.mem_map.2 ⟨t, hmem, hid⟩
        · exact h.sleepers list id' hid'
      · exact h.sleepers list' id' hid'
    · intro list'
      rw [hsleepers]
      split
      · exact pairwise_insertSorted (h.sorted list)
      · exact h.sorted list'

/-! ## Waking up -/

theorem WaitsAgree.wake (h : s.WaitsAgree) (list : WaitListId) (p : ThreadId → Bool)
    (hp : ∀ id, p id = true → id ∈ s.sleepers list)
    (hthreads : s'.threads = s.threads.map fun t ↦ if p t.id then t.wake else t)
    (hnext : s'.nextThreadId = s.nextThreadId) (hid : s'.id = s.id)
    (hlist : s'.sleepers list = (s.sleepers list).filter (!p ·))
    (hother : ∀ list', list' ≠ list → s'.sleepers list' = s.sleepers list') : s.Advances s' := by
  have hids : s'.threadIds = s.threadIds := by
    rw [threadIds, threadIds, hthreads, List.map_map]
    refine List.map_congr_left fun t _ ↦ ?_
    dsimp only [Function.comp]
    split <;> rfl
  have hmem (list' : WaitListId) (id : ThreadId) :
      id ∈ s'.sleepers list' ↔ id ∈ s.sleepers list' ∧ p id = false := by
    by_cases heq : list' = list
    · rw [heq, hlist, List.mem_filter, Bool.not_eq_true']
    · rw [hother list' heq]
      refine ⟨fun hmem ↦ ⟨hmem, ?_⟩, And.left⟩
      rw [← Bool.not_eq_true]
      exact fun hpid ↦ heq (h.eq_of_mem hmem (hp id hpid))
  have hmarks : ∀ t ∈ s'.threads, ∃ u ∈ s.threads, u.id = t.id ∧ (p u.id = true ∧ t.enabled = true ∧
      t.waitingOn = none ∨ p u.id = false ∧ t = u) := by
    rw [hthreads]
    intro t ht
    obtain ⟨u, hu, rfl⟩ := List.mem_map.1 ht
    refine ⟨u, hu, ?_⟩
    split
    · rename_i hpu
      exact ⟨rfl, .inl ⟨hpu, rfl, rfl⟩⟩
    · rename_i hpu
      exact ⟨rfl, .inr ⟨by simpa using hpu, rfl⟩⟩
  refine ⟨⟨hids ▸ h.ids, fun id hid ↦ hnext ▸ h.id_lt id (hids ▸ hid), fun t ht ↦ ?_, fun t ht list' ↦ ?_,
    fun list' id hid ↦ ?_, fun list' ↦ ?_⟩, ⟨Nat.le_of_eq hnext.symm, fun id hid _ ↦ hids ▸ hid⟩, hid⟩
  · obtain ⟨u, hu, -, ⟨-, henabled, hwaiting⟩ | ⟨-, rfl⟩⟩ := hmarks t ht
    · simp [henabled, hwaiting]
    · exact h.disabled_iff t hu
  · rw [hmem]
    obtain ⟨u, hu, hid, ⟨hpu, -, hwaiting⟩ | ⟨hpu, rfl⟩⟩ := hmarks t ht
    · simp [hwaiting, ← hid, hpu]
    · rw [h.waiting_iff t hu list']
      exact ⟨fun hmem ↦ ⟨hmem, hpu⟩, And.left⟩
  · exact hids ▸ h.sleepers list' id ((hmem list' id).1 hid).1
  · by_cases heq : list' = list
    · rw [heq, hlist]
      exact (h.sorted list).filter _
    · exact hother list' heq ▸ h.sorted list'

theorem WaitsAgree.notifyOne (h : s.WaitsAgree) (hid : id ∈ s.sleepers list) :
    s.Advances (s.notifyOne list id) := by
  have hsleepers (list' : WaitListId) : (s.notifyOne list id).sleepers list' =
      if list = list' then (s.sleepers list).filter (· ≠ id) else s.sleepers list' := by
    rw [State.sleepers, State.notifyOne, Std.TreeMap.getD_modify]
    simp only [Std.compare_eq_iff_eq]
    split
    · rw [State.sleepers, Std.TreeMap.getD_eq_getD_getElem?]
      cases s.waitLists[list]? <;> rfl
    · rfl
  refine h.wake list (· == id) (fun id' hid' ↦ ?_) ?_ rfl rfl ?_ fun list' hne ↦ ?_
  · rwa [eq_of_beq hid']
  · simp [State.notifyOne]
  · rw [hsleepers, if_pos rfl]
    exact List.filter_congr fun x _ ↦ by by_cases hx : x = id <;> simp [hx]
  · rw [hsleepers, if_neg hne.symm]

theorem WaitsAgree.notifyAll (h : s.WaitsAgree) (list : WaitListId) : s.Advances (s.notifyAll list) := by
  have hsleepers (list' : WaitListId) : (s.notifyAll list).sleepers list' =
      if list = list' then [] else s.sleepers list' := by
    rw [State.sleepers, State.notifyAll, Std.TreeMap.getD_erase]
    simp only [Std.compare_eq_iff_eq]
    rfl
  refine h.wake list (s.sleepers list).contains (fun id' hid' ↦ ?_) rfl rfl rfl ?_ fun list' hne ↦ ?_
  · simpa using hid'
  · rw [hsleepers, if_pos rfl]
    simp
  · rw [hsleepers, if_neg hne.symm]

/-! ## The next thread -/

theorem nextThread_eq_none {after : ThreadId} : s.nextThread after = none ↔ s.enabledThreads = [] := by
  rw [nextThread, List.partition_eq_filter_filter, List.head?_eq_none_iff, List.append_eq_nil_iff]
  simp only [List.filter_eq_nil_iff]
  constructor
  · rintro ⟨hlater, hearlier⟩
    refine List.eq_nil_iff_forall_not_mem.2 fun id hid ↦ ?_
    have hle := hlater id hid
    exact hearlier id hid (by simpa using hle)
  · intro hnil
    simp [hnil]

theorem sameWaits_scheduleNext (s : State) (id : ThreadId) :
    Ends (fun _ ↦ True) (s.scheduleNext id) fun s' ↦ s.SameWaits s' ∧ s'.id = s.id := by
  refine ends_bind (P := fun _ ↦ True) (ends_true_iff.2 fun _ _ ↦ trivial) fun t _ ↦ ?_
  exact ends_bind (P := fun _ ↦ True) (ends_true_iff.2 fun _ _ ↦ trivial) fun _ _ ↦
    ends_pure ⟨⟨rfl, rfl, rfl⟩, rfl⟩

end State

end Symex
