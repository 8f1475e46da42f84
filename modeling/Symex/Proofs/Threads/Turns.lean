import Symex.Executor.Schedule
import Symex.Proofs.Threads.Waits

namespace Symex

open Checked

namespace State

variable {s : State} {id after : ThreadId} {l rest : List ThreadId}

/-- The threads that can run, once around the ring from the first one after `after`. -/
def ring (s : State) (after : ThreadId) : List ThreadId :=
  s.enabledThreads.filter (after < ·) ++ s.enabledThreads.filter (· ≤ after)

/-- The thread that runs gives way to the next one. -/
def giveWay (s : State) : Checked State := do
  let next ← Checked.ofOption (s.nextThread s.current)
  s.scheduleNext next

/-- Threads give way `count` times. The result tells who comes to run, in order. -/
def rounds : Nat → State → Checked (List ThreadId × State)
  | 0, s => return ([], s)
  | count + 1, s => do
    let s ← s.giveWay
    let (order, last) ← rounds count s
    return (s.current :: order, last)

theorem partition_enabledThreads : s.enabledThreads.partition (after < ·) =
    (s.enabledThreads.filter (after < ·), s.enabledThreads.filter (· ≤ after)) := by
  rw [List.partition_eq_filter_filter]
  refine congrArg (Prod.mk _) (List.filter_congr fun x _ ↦ ?_)
  simp only [Function.comp_apply, ← decide_not, Nat.not_lt]

theorem nextThread_eq_head? : s.nextThread after = (s.ring after).head? := by
  rw [nextThread, partition_enabledThreads, ring]

theorem perm_ring : (s.ring after).Perm s.enabledThreads := by
  have hperm := List.filter_append_perm (after < ·) s.enabledThreads
  simp only [← decide_not, Nat.not_lt] at hperm
  exact hperm

theorem pairwise_enabledThreads (hids : s.threadIds.Pairwise (· < ·)) : s.enabledThreads.Pairwise (· < ·) :=
  hids.sublist (List.filter_sublist.map Thread.id)

theorem enabledThreads_eq (hids : s.threadIds.Pairwise (· < ·)) (after : ThreadId) :
    s.enabledThreads = s.enabledThreads.filter (· ≤ after) ++ s.enabledThreads.filter (after < ·) := by
  have hsorted := pairwise_enabledThreads hids
  have hasymm : ∀ a b : ThreadId, a < b → b < a → a = b := fun a b hab hba ↦ absurd hab (Nat.lt_asymm hba)
  refine List.Perm.eq_of_pairwise (fun a b _ _ ↦ hasymm a b) hsorted
    (List.pairwise_append.2 ⟨hsorted.filter _, hsorted.filter _, fun x hx y hy ↦ ?_⟩)
    (perm_ring.symm.trans List.perm_append_comm)
  have hx : x ≤ after := by simpa using (List.mem_filter.1 hx).2
  have hy : after < y := by simpa using (List.mem_filter.1 hy).2
  exact Nat.lt_of_le_of_lt hx hy

theorem ring_of_enabledThreads (hids : s.threadIds.Pairwise (· < ·)) (h : s.enabledThreads = l ++ id :: rest) :
    s.ring id = rest ++ (l ++ [id]) := by
  have hsorted := pairwise_enabledThreads hids
  rw [h, List.pairwise_append, List.pairwise_cons] at hsorted
  obtain ⟨-, ⟨hafter, -⟩, hbefore⟩ := hsorted
  have hl : ∀ x ∈ l, x < id := fun x hx ↦ hbefore x hx id List.mem_cons_self
  have hlater : (l ++ id :: rest).filter (id < ·) = rest := by
    rw [List.filter_append, List.filter_cons_of_neg (by simp),
      List.filter_eq_nil_iff.2 (fun x hx ↦ by simpa using Nat.le_of_lt (hl x hx)),
      List.filter_eq_self.2 (fun x hx ↦ by simpa using hafter x hx), List.nil_append]
  have hearlier : (l ++ id :: rest).filter (· ≤ id) = l ++ [id] := by
    rw [List.filter_append, List.filter_cons_of_pos (by simp),
      List.filter_eq_self.2 (fun x hx ↦ by simpa using Nat.le_of_lt (hl x hx)),
      List.filter_eq_nil_iff.2 (fun x hx ↦ by simpa using hafter x hx)]
  rw [ring, h, hlater, hearlier]

theorem ring_of_ring (hids : s.threadIds.Pairwise (· < ·)) (h : s.ring after = id :: rest) :
    s.ring id = rest ++ [id] := by
  have hsplit := enabledThreads_eq hids after
  rw [ring] at h
  cases hlater : s.enabledThreads.filter (after < ·) with
  | nil =>
    rw [hlater, List.nil_append] at h
    rw [hlater, h, List.append_nil] at hsplit
    exact ring_of_enabledThreads (l := []) hids hsplit
  | cons x xs =>
    rw [hlater, List.cons_append, List.cons.injEq] at h
    obtain ⟨rfl, rfl⟩ := h
    rw [hlater] at hsplit
    rw [ring_of_enabledThreads hids hsplit, List.append_assoc]

theorem exists_ring_eq (hids : s.threadIds.Pairwise (· < ·)) (h : id ∈ s.enabledThreads) :
    ∃ others, s.ring id = others ++ [id] := by
  obtain ⟨l, rest, hsplit⟩ := List.append_of_mem h
  exact ⟨rest ++ l, by rw [ring_of_enabledThreads hids hsplit, List.append_assoc]⟩

theorem exists_thread?_of_mem (hids : s.threadIds.Pairwise (· < ·)) (h : id ∈ s.enabledThreads) :
    ∃ t, s.thread? id = some t ∧ t.enabled = true := by
  obtain ⟨t, ht, rfl⟩ := List.mem_map.1 h
  obtain ⟨hmem, henabled⟩ := List.mem_filter.1 ht
  obtain ⟨u, hu⟩ : ∃ u, s.thread? t.id = some u :=
    Option.isSome_iff_exists.1 (List.find?_isSome.2 ⟨t, hmem, beq_self_eq_true _⟩)
  have hid : u.id = t.id := by simpa using List.find?_some hu
  have hut : u = t := List.inj_on_of_nodup_map (hids.imp Nat.ne_of_lt) (List.mem_of_find?_eq_some hu) hmem hid
  exact ⟨u, hu, hut ▸ henabled⟩

theorem giveWay_eq (hids : s.threadIds.Pairwise (· < ·)) (h : s.ring s.current = id :: rest) :
    s.giveWay = .ok { s with current := id, exitedAt := none } := by
  have hmem : id ∈ s.enabledThreads := perm_ring.subset (h ▸ List.mem_cons_self)
  obtain ⟨t, ht, henabled⟩ := exists_thread?_of_mem hids hmem
  simp [giveWay, nextThread_eq_head?, h, Checked.ofOption, scheduleNext, ht, henabled, demand]

theorem rounds_eq (hids : s.threadIds.Pairwise (· < ·)) (h : s.ring s.current = id :: l ++ rest) :
    s.rounds (l.length + 1) =
      .ok (id :: l, { s with current := (id :: l).getLast (List.cons_ne_nil _ _), exitedAt := none }) := by
  induction l generalizing s id rest with
  | nil => simp [rounds, giveWay_eq hids h]
  | cons id' l ih =>
    have hturned : ({ s with current := id, exitedAt := none } : State).ring id = id' :: l ++ (rest ++ [id]) :=
      (ring_of_ring hids h).trans (List.append_assoc _ _ _)
    have hrest := ih (s := { s with current := id, exitedAt := none }) hids hturned
    rw [rounds, giveWay_eq hids h, ok_bind, List.length_cons, hrest]
    rfl

theorem ring_ne_nil (h : s.enabledThreads ≠ []) : s.ring after ≠ [] := fun hnil ↦
  h (List.nil_perm.1 (hnil ▸ perm_ring))

theorem rounds_ring (hids : s.threadIds.Pairwise (· < ·)) (h : s.enabledThreads ≠ []) :
    s.rounds s.enabledThreads.length = .ok (s.ring s.current,
      { s with current := (s.ring s.current).getLast (ring_ne_nil h), exitedAt := none }) := by
  have hne : s.ring s.current ≠ [] := ring_ne_nil h
  obtain ⟨id, l, hring⟩ := List.exists_cons_of_ne_nil hne
  have hlength : s.enabledThreads.length = l.length + 1 := by
    have hperm : (s.ring s.current).Perm s.enabledThreads := perm_ring
    rw [← hperm.length_eq, hring, List.length_cons]
  have hrounds : s.rounds (l.length + 1) = _ := rounds_eq hids (hring.trans (List.append_nil (id :: l)).symm)
  rw [hlength, hrounds]
  simp only [hring]

end State

namespace Exec

variable {σ : Type} {f : Focus σ} {s : State}

/-- Threads yield `count` times. The result tells who comes to run, in order. -/
def turns : Nat → Exec σ (List ThreadId)
  | 0 => return []
  | count + 1 => do
    schedule true
    let s ← state
    return s.current :: (← turns count)

theorem ends_schedule_yields (hconfig : f.executor.config.forkOnSchedule = false)
    (h : f.state.giveWay = .ok s) :
    (schedule true : Exec σ Unit).Ends (fun _ ↦ False) f fun r g ↦ r = .ok () ∧ g = { f with state := s } := by
  cases hnext : f.state.nextThread f.state.current with
  | none =>
    rw [State.giveWay, hnext] at h
    cases h
  | some next =>
    have hswitch : f.state.scheduleNext next = .ok s := by
      rw [State.giveWay, hnext] at h
      exact h
    have henabled : f.state.enabledThreads ≠ [] := fun hnil ↦ by
      rw [State.nextThread, hnil] at hnext
      cases hnext
    refine ends_bind_ok rfl (ends_bind_ok rfl ?_)
    dsimp only
    rw [if_neg (by simpa using henabled), if_neg (by simp [hconfig]), if_neg (by simp), hnext]
    exact ends_updateState (Checked.ends_of_eq hswitch ⟨rfl, rfl⟩)

theorem ends_turns (hconfig : f.executor.config.forkOnSchedule = false) {count : Nat} {order : List ThreadId}
    (h : f.state.rounds count = .ok (order, s)) :
    (turns count : Exec σ _).Ends (fun _ ↦ False) f fun r g ↦ r = .ok order ∧ g = { f with state := s } := by
  induction count generalizing f order with
  | zero =>
    obtain ⟨rfl, rfl⟩ := Prod.mk.inj (pure_eq_ok.1 h)
    exact ends_pure ⟨rfl, rfl⟩
  | succ count ih =>
    obtain ⟨next, hnext, h⟩ := bind_eq_ok.1 h
    obtain ⟨⟨rest, last⟩, hrest, h⟩ := bind_eq_ok.1 h
    obtain ⟨rfl, rfl⟩ := Prod.mk.inj (pure_eq_ok.1 h)
    refine ends_bind (ends_schedule_yields hconfig hnext) ?_ fun _ _ h ↦ nomatch h.1
    rintro _ _ ⟨-, rfl⟩
    refine ends_bind_ok rfl (ends_bind (ih (f := { f with state := next }) hconfig hrest) ?_ fun _ _ h ↦ nomatch h.1)
    rintro _ _ ⟨⟨⟩, rfl⟩
    exact ends_pure ⟨rfl, rfl⟩

end Exec

namespace State

/-- Where `n` threads can run, `n` rounds run each of them once, in the order of the ring and with nothing else
changed, and come back to the thread that ran before, if it can run. That is also what becomes of it when threads
of the machine yield, as long as schedules are not explored. -/
theorem round_robin {σ : Type} {s : State} (hids : s.threadIds.Pairwise (· < ·)) (h : s.enabledThreads ≠ []) :
    ∃ (order : List ThreadId) (s' : State), s.rounds s.enabledThreads.length = .ok (order, s') ∧
      s' = { s with current := s'.current, exitedAt := none } ∧
      (∀ id, order.count id = if id ∈ s.enabledThreads then 1 else 0) ∧
      (s.current ∈ s.enabledThreads → s'.current = s.current) ∧
      ∀ f : Focus σ, f.state = s → f.executor.config.forkOnSchedule = false →
        (Exec.turns s.enabledThreads.length).run.run f = .ok (.ok order, { f with state := s' }) := by
  have hrounds := rounds_ring hids h
  refine ⟨_, _, hrounds, rfl, fun id ↦ ?_, fun hcurrent ↦ ?_, fun f hf hconfig ↦ ?_⟩
  · have hnodup : s.enabledThreads.Nodup := (pairwise_enabledThreads hids).imp Nat.ne_of_lt
    rw [perm_ring.count_eq, hnodup.count]
  · obtain ⟨others, hring⟩ := exists_ring_eq hids hcurrent
    simp only [hring, List.getLast_append_singleton]
  · subst hf
    obtain ⟨order, g, hrun, rfl, rfl⟩ := Exec.returns_of_ends
      (Q := fun order g ↦ order = f.state.ring f.state.current ∧ g = { f with state := { f.state with
        current := (f.state.ring f.state.current).getLast (ring_ne_nil h), exitedAt := none } })
      ((Exec.ends_turns hconfig hrounds).mono fun _ _ h ↦ ⟨_, h.1, rfl, h.2⟩)
    exact hrun

/-- Thread 5 has ended, thread 2 sleeps, and threads 0, 3 and 7 can run. -/
def apart : State :=
  { State.start 0 0 0 with
    threads := [.start 0 0 0, (Thread.start 2 0 0).sleepOn 1, .start 3 0 0, .start 7 0 0]
    current := 5
    nextThreadId := 8 }

/-- After the thread that has ended, thread 7 runs, and then those from the first one on. -/
theorem round_robin_apart : ∃ s', apart.rounds 3 = .ok ([7, 0, 3], s') ∧ s'.current = 3 ∧
    [7, 0, 3].count 0 = 1 ∧ [7, 0, 3].count 2 = 0 := by
  obtain ⟨order, s', hrounds, -, hcount, -, -⟩ :=
    round_robin (σ := Unit) (s := apart) (by decide) (by decide)
  have hring := rounds_ring (s := apart) (by decide) (by decide)
  obtain ⟨rfl, rfl⟩ := Prod.mk.inj (Except.ok.inj (hrounds.symm.trans hring))
  exact ⟨_, hrounds, by decide, hcount 0, hcount 2⟩

end State

end Symex
