import LStore.Os.ObjectLockSafe

/-!
# Runs of the open locks

The lock calls keep their promises in every run in which no call comes between the signal to
a waiter and its waking up in a way that needs the waiter to be counted already.
-/

namespace LStore.Os

open Base.Reach List Option Function

variable {Fd Name : Type} [DecidableEq Name] {f : Files Fd Name} {n : Nat} {fd : Fd}
  {s s' : LockState Fd Name}

variable {o : Name} {holders : List Fd} {call : Fd → Call} {e : Fol Fd}

theorem filter_append_ne (l : List Fd) (ho : o ≠ f.name fd) :
    ((l ++ [fd]).filter fun u => f.name u = o) = l.filter fun u => f.name u = o := by
  simp [ho.symm]

/-- A granted lock call joins those that have the lock or were signalled. -/
theorem EntryOk.mayJoin_of_grants (h : EntryOk f o n e call holders)
    (hgrants : e.grants f fd = true)
    (hmeets : ∀ t, call t = .signalled n → f.mode fd = .read ∧ f.mode t = .read) :
    MayJoin f n e call fd := by
  constructor
  · intro hmode
    simp only [Fol.grants, hmode, decide_eq_true_eq] at hgrants
    exact ⟨h.writeCount_zero.mp hgrants.1, fun t ht => (hmeets t ht).2⟩
  · intro hmode
    simp only [Fol.grants, hmode, decide_eq_true_eq] at hgrants
    refine ⟨h.counts_zero.mp ⟨hgrants.1, hgrants.2.1⟩, fun t ht => ?_⟩
    exact absurd ((hmeets t ht).1.symm.trans hmode) (by simp)

/-- A call of another reader may join a signalled reader. -/
theorem EntryOk.mayJoin_reader (h : EntryOk f o n e call holders) (hcall : call fd = .signalled n)
    (hmode : f.mode fd = .read) {t} (ht : f.mode t = .read) : MayJoin f n e call t := by
  refine ⟨fun _ => ⟨fun u hu => ?_, fun u hu => ?_⟩,
    fun hw => absurd (ht.symm.trans hw) (by simp)⟩
  · by_contra hne
    exact (h.alone u hu (by rwa [← Mode.ne_write, not_not] at hne)).2 fd hcall
  · by_contra hne
    rw [← Mode.ne_write, not_not] at hne
    have hfd := (h.next u hu hne).2 fd hcall
    rw [hfd] at hmode
    exact absurd (hmode.symm.trans hne) (by simp)

theorem LockState.Inv.grant (h : s.Inv f) (htable : s.fobjTable (f.name fd) = some n)
    (hjoin : MayJoin f n (s.fol n) s.call fd) : LockState.Inv f (s.grant f fd n) := by
  exact h.change htable ((h.entry _ n htable).enter rfl hjoin) (fun _ _ => rfl)
    (fun _ _ hne => absurd rfl hne) fun o ho => filter_append_ne s.holders ho

variable [DecidableEq Fd]

/-- The call does not need a signalled waiter to be counted: a lock that is granted goes
together with those signalled; an unlock finds the entry, and when it leaves the object to
nobody, or to a writer, nobody is signalled. -/
def LockState.Meets (f : Files Fd Name) (s : LockState Fd Name) : LockAct Fd → Prop
  | .lock fd _ => ∀ n, s.fobjTable (f.name fd) = some n → (s.fol n).grants f fd →
      ∀ t, s.call t = .signalled n → f.mode fd = .read ∧ f.mode t = .read
  | .wake _ => True
  | .unlock fd => ∃ n, s.fobjTable (f.name fd) = some n ∧
      (fd ∈ (s.fol n).activeStack → ((s.fol n).leave f fd).readCount = 0 →
        ((s.fol n).leave f fd).writeCount = 0 → (s.fol n).topIs f .read = false →
        ∀ t, s.call t ≠ .signalled n)

/-- The changes of a step concern one descriptor. -/
theorem LockState.Inv.changeOne (h : s.Inv f) (htable : s.fobjTable (f.name fd) = some n) {c}
    (hentry : EntryOk f (f.name fd) n e (Function.update s.call fd c) holders)
    (hc : ∀ m, c = .waiting m ∨ c = .signalled m → m = n)
    (hfilter : ∀ o, o ≠ f.name fd → (holders.filter fun u => f.name u = o) =
      s.holders.filter fun u => f.name u = o) :
    LockState.Inv f
      { s with
        fol := Function.update s.fol n e
        call := Function.update s.call fd c
        holders := holders } := by
  refine h.change htable hentry (fun t ht => ?_) (fun t m hne hm => ?_) hfilter
  · exact update_of_ne (fun heq => ht (by rw [heq])) _ _
  · by_cases heq : t = fd
    · subst heq
      rw [update_self] at hm
      exact hc m hm
    · exact absurd (update_of_ne heq _ _) hne

theorem filter_erase_ne (l : List Fd) (ho : o ≠ f.name fd) :
    ((l.erase fd).filter fun u => f.name u = o) = l.filter fun u => f.name u = o := by
  rw [← erase_filter, erase_of_not_mem (by simp [ho.symm])]

theorem LockState.Inv.sleep (h : s.Inv f) (hcall : s.call fd = .outside)
    (htable : s.fobjTable (f.name fd) = some n) :
    LockState.Inv f ((s.setFol n { s.fol n with stack := (s.fol n).stack ++ [fd] }).goto fd
      (.waiting n)) :=
  h.changeOne htable ((h.entry _ n htable).wait hcall) (by simp) fun _ _ => rfl

theorem LockState.Inv.lockWith (h : s.Inv f) (hcall : s.call fd = .outside)
    (htable : s.fobjTable (f.name fd) = some n)
    (hmeets : (s.fol n).grants f fd → ∀ t, s.call t = .signalled n →
      f.mode fd = .read ∧ f.mode t = .read) : (s.lockWith f fd n).Inv f := by
  rw [LockState.lockWith]
  split_ifs with hgrants
  · exact h.grant htable ((h.entry _ n htable).mayJoin_of_grants hgrants (hmeets hgrants))
  · exact h.sleep hcall htable

theorem LockState.Inv.lock (h : s.Inv f) (hcall : s.call fd = .outside) {slot}
    (hmeets : s.Meets f (.lock fd slot)) (hstep : s.lock f fd slot = some s') : s'.Inv f := by
  rw [LockState.lock] at hstep
  cases htable : s.fobjTable (f.name fd) with
  | some n =>
    rw [htable] at hstep
    cases hstep
    exact h.lockWith hcall htable (hmeets n htable)
  | none =>
    rw [htable] at hstep
    simp only at hstep
    split at hstep
    · cases hstep
    · next hslot =>
        cases hstep
        rw [Bool.not_eq_true] at hslot
        refine (h.open htable hslot).lockWith hcall (by simp) fun _ t ht => ?_
        have hused := h.reserved _ _ (h.entries t slot (.inr ht))
        exact absurd (hused.symm.trans hslot) (by simp)

/-- The top waiter is signalled. -/
theorem LockState.Inv.signal (h : s.Inv f) (htable : s.fobjTable o = some n)
    (hjoin : ∀ t, (s.fol n).stack.head? = some t → MayJoin f n (s.fol n) s.call t) :
    (s.signal n).Inv f := by
  rw [LockState.signal]
  cases hstack : (s.fol n).stack with
  | nil => exact h
  | cons t rest =>
    have hentry := h.entry o n htable
    have hname : s.fobjTable (f.name t) = some n :=
      h.entries t n (.inl ((hentry.stack t).mp (by simp [hstack])))
    have ho : o = f.name t := h.distinct _ _ n htable hname
    subst ho
    exact h.changeOne htable (hentry.signal hstack (hjoin t (by simp [hstack]))) (by simp)
      fun _ _ => rfl

/-- A signalled waiter may join the others. -/
theorem EntryOk.mayJoin_of_signalled (h : EntryOk f o n e call holders)
    (hcall : call fd = .signalled n) : MayJoin f n e (Function.update call fd .outside) fd := by
  constructor
  · intro hmode
    refine ⟨fun t ht => ?_, fun t ht => ?_⟩
    · by_contra hne
      exact (h.alone t ht (by rwa [← Mode.ne_write, not_not] at hne)).2 fd hcall
    · by_contra hne
      rw [← Mode.ne_write, not_not] at hne
      have htne : t ≠ fd := fun heq => by simp [heq] at ht
      rw [update_of_ne htne] at ht
      exact htne ((h.next t ht hne).2 fd hcall).symm
  · intro hmode
    obtain ⟨hnil, honly⟩ := h.next fd hcall hmode
    refine ⟨hnil, fun t ht => ?_⟩
    have htne : t ≠ fd := fun heq => by simp [heq] at ht
    rw [update_of_ne htne] at ht
    exact htne (honly t ht)

section

variable (h : s.Inv f)
include h

theorem LockState.Inv.wakeUp (hcall : s.call fd = .signalled n) :
    LockState.Inv f ((s.grant f fd n).goto fd .outside) := by
  have htable := h.entries fd n (.inr hcall)
  have hentry := h.entry _ n htable
  have hnot : fd ∉ (s.fol n).stack := by simp [hentry.stack, hcall]
  have houtside := hentry.abort fd
  rw [erase_of_not_mem hnot] at houtside
  exact h.changeOne htable (houtside.enter rfl (hentry.mayJoin_of_signalled hcall)) (by simp)
    fun o ho => filter_append_ne s.holders ho

theorem LockState.Inv.wake (hstep : s.wake f fd = some s') : s'.Inv f := by
  rw [LockState.wake] at hstep
  cases hcall : s.call fd with
  | outside => simp [hcall] at hstep
  | waiting n =>
    simp only [hcall] at hstep
    cases hstep
    have htable := h.entries fd n (.inl hcall)
    exact h.changeOne htable ((h.entry _ n htable).abort fd) (by simp) fun _ _ => rfl
  | signalled n =>
    simp only [hcall] at hstep
    cases hstep
    have htable := h.entries fd n (.inr hcall)
    have hentry := h.entry _ n htable
    split_ifs with hchain
    · have hsignal : (s.signal n).Inv f := by
        refine h.signal htable fun t ht => hentry.mayJoin_reader hcall hchain.1 ?_
        simpa [Fol.topIs, ht] using hchain.2
      refine hsignal.wakeUp ?_
      have hnot : (s.fol n).stack.head? ≠ some fd := fun heq => by
        have hmem := mem_of_mem_head? heq
        rw [hentry.stack, hcall] at hmem
        cases hmem
      rw [LockState.signal]
      cases hstack : (s.fol n).stack with
      | nil => exact hcall
      | cons t rest =>
        have hne : fd ≠ t := fun heq => hnot (by simp [hstack, heq])
        simpa [LockState.goto, LockState.setFol, update_of_ne hne] using hcall
    · exact h.wakeUp hcall

theorem LockState.Inv.wakeNext (htable : s.fobjTable o = some n)
    (hreaders : ∀ t, s.call t = .signalled n → f.mode t = .read)
    (hnone : (s.fol n).readCount = 0 → (s.fol n).writeCount = 0 → (s.fol n).topIs f .read =
      false → ∀ t, s.call t ≠ .signalled n) : (s.wakeNext f n).Inv f := by
  have hentry := h.entry o n htable
  rw [LockState.wakeNext]
  split_ifs with hnext
  · refine h.signal htable fun t ht => ?_
    have htop (m : Mode) : (s.fol n).topIs f m = decide (f.mode t = m) := by
      simp [Fol.topIs, ht]
    simp only [htop, decide_eq_true_eq, decide_eq_false_iff_not] at hnext hnone
    rcases hnext with ⟨hmode, hw⟩ | ⟨hmode, hw, hr⟩
    · exact ⟨fun _ => ⟨hentry.writeCount_zero.mp hw, hreaders⟩,
        fun hwrite => absurd (hmode.symm.trans hwrite) (by simp)⟩
    · exact ⟨fun hread => absurd (hmode.symm.trans hread) (by simp),
        fun _ => ⟨hentry.counts_zero.mp ⟨hw, hr⟩, hnone hr hw (by simp [hmode])⟩⟩
  · exact h

theorem LockState.Inv.unlock (hmeets : s.Meets f (.unlock fd)) : (s.unlock f fd).Inv f := by
  obtain ⟨n, htable, hmeets⟩ := hmeets
  have hentry := h.entry _ n htable
  rw [LockState.unlock]
  simp only [htable]
  split
  · next hnot =>
      have hmem : fd ∉ s.holders := fun hmem => hnot (by
        rw [hentry.active]
        exact mem_filter.mpr ⟨hmem, by simp⟩)
      rw [erase_of_not_mem hmem]
      exact h
  · next hmem =>
      rw [not_not] at hmem
      have hleft : LockState.Inv f
          { s with
            fol := update s.fol n ((s.fol n).leave f fd)
            holders := s.holders.erase fd } :=
        h.change htable (hentry.leave hmem) (fun _ _ => rfl) (fun _ _ hne => absurd rfl hne)
          fun o ho => filter_erase_ne s.holders ho
      have hleft_entry := hleft.entry _ n htable
      simp only [update_self] at hleft_entry
      split_ifs with hfree
      · obtain ⟨hstack, hr, hw⟩ := hfree
        have hempty : (s.fol n).leave f fd = .empty := by
          have hactive := hleft_entry.counts_zero.mp ⟨hw, hr⟩
          cases hfol : (s.fol n).leave f fd with
          | mk stack active reads writes =>
            rw [hfol] at hstack hr hw hactive
            simp only at hstack hr hw hactive
            simp [Fol.empty, hstack, hr, hw, hactive]
        refine hleft.close htable (by simpa using hempty) (hmeets hmem hr hw ?_)
        rw [Fol.leave_stack] at hstack
        simp [Fol.topIs, hstack]
      · refine hleft.wakeNext htable (fun t ht => ?_) ?_
        · by_contra hne
          rw [← Mode.ne_write, not_not] at hne
          rw [(hentry.next t ht hne).1] at hmem
          simp at hmem
        · simp only [update_self, Fol.topIs, Fol.leave_stack]
          exact hmeets hmem

theorem LockState.Inv.step {a} (hmeets : s.Meets f a) (hstep : s.step f a = some s') :
    s'.Inv f := by
  cases a with
  | lock fd slot =>
    obtain ⟨hguard, hstep⟩ := ite_none_right_eq_some.mp hstep
    exact h.lock hguard.2 hmeets hstep
  | wake fd =>
    exact h.wake (ite_none_right_eq_some.mp hstep).2
  | unlock fd =>
    obtain ⟨-, ⟨⟩⟩ := ite_none_right_eq_some.mp hstep
    exact h.unlock hmeets

end

/-- A signalled waiter gets the lock when it wakes up, whatever happened before. -/
theorem LockState.step_wake (hfree : s.fobjLock = false) (hcall : s.call fd = .signalled n) :
    ∃ s', s.step f (.wake fd) = some s' ∧ s'.holders = s.holders ++ [fd] ∧
      s'.fobjLock = false ∧ ∀ u, u ≠ fd → s.call u = .signalled n → s'.call u = .signalled n := by
  have hkeeps (t : LockState Fd Name) (ht : t = s ∨ t = s.signal n) :
      t.holders = s.holders ∧ t.fobjLock = false ∧
        ∀ u, s.call u = .signalled n → t.call u = .signalled n := by
    rcases ht with rfl | rfl
    · exact ⟨rfl, hfree, fun _ hu => hu⟩
    · rw [LockState.signal]
      split
      · exact ⟨rfl, hfree, fun _ hu => hu⟩
      · refine ⟨rfl, hfree, fun u hu => ?_⟩
        simp only [LockState.goto, LockState.setFol, update_apply]
        split
        · rfl
        · exact hu
  refine ⟨_, by rw [LockState.step, if_pos hfree, LockState.wake, hcall], ?_⟩
  obtain ⟨hholders, hlock, hcalls⟩ := hkeeps
    (if f.mode fd = .read ∧ (s.fol n).topIs f .read then s.signal n else s)
    (by split <;> simp)
  refine ⟨?_, hlock, fun u hne hu => ?_⟩
  · exact congrArg (· ++ [fd]) hholders
  · exact (update_of_ne hne _ _).trans (hcalls u hu)

theorem LockState.Inv.lock_breaks (h : s.Inv f) {slot} (hcall : s.call fd = .outside)
    (hstep : s.lock f fd slot = some s') (hnot : ¬s.Meets f (.lock fd slot)) :
    ∃ as s'', run (LockState.step f) s' as = some s'' ∧ ¬s''.Safe f := by
  simp only [LockState.Meets] at hnot
  push Not at hnot
  obtain ⟨n, htable, hgrants, t, ht, hmodes⟩ := hnot
  rw [LockState.lock, htable] at hstep
  cases hstep
  rw [LockState.lockWith, if_pos hgrants]
  have hname : f.name t = f.name fd := h.distinct _ _ n (h.entries t n (.inr ht)) htable
  have hne : t ≠ fd := fun heq => by rw [heq, hcall] at ht; cases ht
  obtain ⟨s'', hwake, hholders, -, -⟩ :=
    LockState.step_wake (f := f) (s := s.grant f fd n) h.free ht
  refine ⟨[.wake t], s'', by simp [run, hwake], ?_⟩
  have htmem : t ∈ s''.holders := by simp [hholders]
  have hfdmem : fd ∈ s''.holders := by simp [hholders, LockState.grant]
  cases hmode : f.mode fd with
  | write => exact LockState.not_safe_of_two hfdmem htmem hne.symm hname.symm hmode
  | read =>
    have hwrite : f.mode t = .write := by
      by_contra hread
      exact hmodes hmode (Mode.ne_write.mp hread)
    exact LockState.not_safe_of_two htmem hfdmem hne hname hwrite

theorem LockState.Inv.unlock_breaks (h : s.Inv f) (hnot : ¬s.Meets f (.unlock fd)) :
    ∃ as s'', run (LockState.step f) (s.unlock f fd) as = some s'' ∧ ¬s''.Safe f := by
  cases htable : s.fobjTable (f.name fd) with
  | none =>
    refine ⟨[], _, rfl, fun hsafe => ?_⟩
    have hfree := hsafe.free
    simp [LockState.unlock, htable] at hfree
  | some n =>
    simp only [LockState.Meets] at hnot
    push Not at hnot
    obtain ⟨hmem, hr, hw, htop, t, ht⟩ := hnot n htable
    have htname := h.entries t n (.inr ht)
    have hname : f.name t = f.name fd := h.distinct _ _ n htname htable
    have hentry := h.entry _ n htable
    cases hstack : (s.fol n).stack with
    | nil =>
      have hempty : ((s.fol n).leave f fd).stack = [] := by rw [Fol.leave_stack, hstack]
      refine ⟨[], _, rfl, fun hsafe => ?_⟩
      have hused := hsafe.entries t n
      simp [LockState.unlock, htable, hmem, hempty, hr, hw, LockState.setFol, hname, ht] at hused
    | cons u rest =>
      have hmode : f.mode u = .write := by
        by_contra hread
        simp [Fol.topIs, hstack, Mode.ne_write.mp hread] at htop
      have hucall : s.call u = .waiting n := (hentry.stack u).mp (by simp [hstack])
      have hne : u ≠ t := fun heq => by rw [heq, ht] at hucall; cases hucall
      have huname : f.name u = f.name t :=
        h.distinct _ _ n (h.entries u n (.inl hucall)) htname
      have hs' : (s.unlock f fd).fobjLock = false ∧
          (s.unlock f fd).call u = .signalled n ∧ (s.unlock f fd).call t = .signalled n := by
        simp [LockState.unlock, htable, hmem, hr, hw, Fol.leave_stack, hstack, LockState.wakeNext,
          LockState.signal, LockState.setFol, LockState.goto, Fol.topIs, hmode, h.free,
          update_of_ne hne.symm, ht]
      obtain ⟨hfree, hu, ht'⟩ := hs'
      obtain ⟨s₁, hwake₁, hholders₁, hfree₁, hcalls⟩ := LockState.step_wake (f := f) hfree ht'
      obtain ⟨s₂, hwake₂, hholders₂, -, -⟩ :=
        LockState.step_wake (f := f) hfree₁ (hcalls u hne hu)
      refine ⟨[.wake t, .wake u], s₂, by simp [run, hwake₁, hwake₂], ?_⟩
      exact LockState.not_safe_of_two (by simp [hholders₂]) (by simp [hholders₂, hholders₁]) hne
        huname hmode

/-- A step that does not meet the condition leads to a state that breaks a promise. -/
theorem LockState.Inv.step_breaks (h : s.Inv f) {a} (hstep : s.step f a = some s')
    (hnot : ¬s.Meets f a) : ∃ as s'', run (LockState.step f) s' as = some s'' ∧ ¬s''.Safe f := by
  cases a with
  | lock fd slot =>
    obtain ⟨hguard, hstep⟩ := ite_none_right_eq_some.mp hstep
    exact h.lock_breaks hguard.2 hstep hnot
  | wake fd => exact absurd trivial hnot
  | unlock fd =>
    obtain ⟨-, ⟨⟩⟩ := ite_none_right_eq_some.mp hstep
    exact h.unlock_breaks hnot

/-- The lock calls keep their promises in every run whose steps meet the condition, and the
condition leaves out no step that could be allowed. -/
theorem object_locks_safe (f : Files Fd Name) :
    (∀ s, Reached .start (LockState.step f) (LockState.Meets f) s → s.Safe f) ∧
      ∀ s a s', Reached .start (LockState.step f) (LockState.Meets f) s → s.step f a = some s' →
        ¬s.Meets f a → ∃ as s'', run (LockState.step f) s' as = some s'' ∧ ¬s''.Safe f := by
  have hinv : ∀ s, Reached .start (LockState.step f) (LockState.Meets f) s → s.Inv f :=
    fun s hs => hs.invariant LockState.inv_start fun _ _ _ h hmeets hstep => h.step hmeets hstep
  exact ⟨fun s hs => (hinv s hs).safe, fun s a s' hs hstep => (hinv s hs).step_breaks hstep⟩

/-- Two writers of one object, one after the other. -/
theorem object_locks_safe_handover :
    ∃ s, run (LockState.step (⟨fun _ => 0, fun _ => .write⟩ : Files Nat Nat)) .start
        [.lock 0 0, .lock 1 0, .unlock 0, .wake 1] = some s ∧
      s.holders = [1] ∧ s.Safe ⟨fun _ => 0, fun _ => .write⟩ := by
  refine ⟨_, rfl, rfl, (object_locks_safe _).1 _ ?_⟩
  refine .step (a := .wake 1) (.step (a := .unlock 0) (.step (a := .lock 1 0)
    (.step (a := .lock 0 0) .start ?_ rfl) ?_ rfl) ?_ rfl) trivial rfl
  · exact fun n hn => by cases hn
  · intro n hn hgrants
    obtain rfl : 0 = n := some.inj hn
    exact absurd hgrants (by decide)
  · refine ⟨0, rfl, fun _ _ _ _ t ht => ?_⟩
    change update (fun _ => Call.outside) 1 (.waiting 0) t = .signalled 0 at ht
    rw [update_apply] at ht
    split at ht <;> cases ht

/-- A third writer comes between the signal to the second one and its waking up. -/
theorem two_writers_hold_the_lock :
    ∃ s, run (LockState.step (⟨fun _ => 0, fun _ => .write⟩ : Files Nat Nat)) .start
        [.lock 0 0, .lock 1 0, .unlock 0, .lock 2 0, .wake 1] = some s ∧
      s.holders = [2, 1] ∧ ¬s.Safe ⟨fun _ => 0, fun _ => .write⟩ :=
  ⟨_, rfl, rfl, LockState.not_safe_of_two (t := 2) (u := 1) (by decide) (by decide) (by decide) rfl
    rfl⟩

end LStore.Os
