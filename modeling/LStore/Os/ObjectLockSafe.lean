import LStore.Os.ObjectLock

/-!
# Exclusion of the open locks

While a signalled waiter has not run again it is in no count and on no stack, and its entry
looks free. A lock call that is granted in between, or an unlock call that returns the entry
or signals a writer, breaks the exclusion.
-/

namespace LStore.Os

open List Function Fol

variable {Fd Name : Type} {f : Files Fd Name}

theorem Mode.ne_write {m : Mode} : m ≠ .write ↔ m = .read := by
  cases m <;> simp

theorem Fol.enter_activeStack (e : Fol Fd) (fd : Fd) :
    (e.enter f fd).activeStack = e.activeStack ++ [fd] := by
  rw [enter]
  cases f.mode fd <;> rfl

theorem Fol.enter_stack (e : Fol Fd) (fd : Fd) : (e.enter f fd).stack = e.stack := by
  rw [enter]
  cases f.mode fd <;> rfl

theorem Fol.leave_activeStack [DecidableEq Fd] (e : Fol Fd) (fd : Fd) :
    (e.leave f fd).activeStack = e.activeStack.erase fd := by
  rw [leave]
  cases f.mode fd <;> rfl

theorem Fol.leave_stack [DecidableEq Fd] (e : Fol Fd) (fd : Fd) :
    (e.leave f fd).stack = e.stack := by
  rw [leave]
  cases f.mode fd <;> rfl

variable [DecidableEq Name]

/-- Entry `n` belongs to the object `o`. A writer that has the lock or was signalled is the
only one. -/
structure EntryOk (f : Files Fd Name) (o : Name) (n : Nat) (e : Fol Fd) (call : Fd → Call)
    (holders : List Fd) : Prop where
  active : e.activeStack = holders.filter fun t => f.name t = o
  reads : e.readCount = (e.activeStack.filter fun t => f.mode t = .read).length
  writes : e.writeCount = (e.activeStack.filter fun t => f.mode t = .write).length
  nodup : e.stack.Nodup
  stack : ∀ t, t ∈ e.stack ↔ call t = .waiting n
  alone : ∀ t ∈ e.activeStack, f.mode t = .write →
    e.activeStack = [t] ∧ ∀ u, call u ≠ .signalled n
  next : ∀ t, call t = .signalled n → f.mode t = .write →
    e.activeStack = [] ∧ ∀ u, call u = .signalled n → u = t

/-- The descriptor may join those that have the lock or were signalled. -/
structure MayJoin (f : Files Fd Name) (n : Nat) (e : Fol Fd) (call : Fd → Call) (fd : Fd) :
    Prop where
  reader : f.mode fd = .read →
    (∀ t ∈ e.activeStack, f.mode t = .read) ∧ ∀ t, call t = .signalled n → f.mode t = .read
  writer : f.mode fd = .write → e.activeStack = [] ∧ ∀ t, call t ≠ .signalled n

section

variable {o : Name} {n : Nat} {e : Fol Fd} {call : Fd → Call} {holders : List Fd} {fd : Fd}

omit [DecidableEq Name] in
/-- Where a descriptor may join, no writer has the lock or was signalled. -/
theorem MayJoin.not_write (hjoin : MayJoin f n e call fd) {t} (hmode : f.mode t = .write) :
    t ∉ e.activeStack ∧ call t ≠ .signalled n := by
  cases hm : f.mode fd with
  | read =>
    obtain ⟨hactive, hcall⟩ := hjoin.reader hm
    exact ⟨fun ht => by simp [hactive t ht] at hmode, fun ht => by simp [hcall t ht] at hmode⟩
  | write =>
    obtain ⟨hactive, hcall⟩ := hjoin.writer hm
    exact ⟨by simp [hactive], hcall t⟩

section

variable (h : EntryOk f o n e call holders)
include h

theorem EntryOk.writeCount_zero : e.writeCount = 0 ↔ ∀ t ∈ e.activeStack, f.mode t = .read := by
  rw [h.writes]
  simp [Mode.ne_write]

theorem EntryOk.readCount_zero : e.readCount = 0 ↔ ∀ t ∈ e.activeStack, f.mode t = .write := by
  rw [h.reads]
  simp [← Mode.ne_write]

theorem EntryOk.counts_zero : (e.writeCount = 0 ∧ e.readCount = 0) ↔ e.activeStack = [] := by
  rw [h.writeCount_zero, h.readCount_zero]
  constructor
  · rintro ⟨hr, hw⟩
    cases hact : e.activeStack with
    | nil => rfl
    | cons t ts =>
      have ht : t ∈ e.activeStack := by simp [hact]
      exact absurd ((hr t ht).symm.trans (hw t ht)) (by simp)
  · intro hnil
    simp [hnil]

/-- A descriptor that may join gets the lock. -/
theorem EntryOk.enter (hname : f.name fd = o) (hjoin : MayJoin f n e call fd) :
    EntryOk f o n (e.enter f fd) call (holders ++ [fd]) := by
  constructor
  case active => simp [enter_activeStack, h.active, hname]
  case reads =>
    cases hm : f.mode fd <;> simp [Fol.enter, hm, h.reads]
  case writes =>
    cases hm : f.mode fd <;> simp [Fol.enter, hm, h.writes]
  case nodup =>
    rw [Fol.enter_stack]
    exact h.nodup
  case stack =>
    rw [enter_stack]
    exact h.stack
  case alone =>
    intro t ht hmode
    rw [enter_activeStack] at ht ⊢
    rcases mem_append.mp ht with ht | ht
    · exact absurd ht (hjoin.not_write hmode).1
    · obtain rfl := mem_singleton.mp ht
      simpa [(hjoin.writer hmode).1] using (hjoin.writer hmode).2
  case next => exact fun t ht hmode => absurd ht (hjoin.not_write hmode).2

end

variable [DecidableEq Fd]

section

variable (h : EntryOk f o n e call holders)
include h

omit h in
theorem signalled_of_update {c u} (hc : c ≠ .signalled n)
    (hu : Function.update call fd c u = .signalled n) : call u = .signalled n := by
  by_cases heq : u = fd
  · rw [heq, update_self] at hu
    exact absurd hu hc
  · rwa [update_of_ne heq] at hu

/-- The waiters change and nobody is signalled. -/
theorem EntryOk.restack {c stack} (hc : c ≠ .signalled n) (hnodup : stack.Nodup)
    (hstack : ∀ t, t ∈ stack ↔ Function.update call fd c t = .waiting n) :
    EntryOk f o n { e with stack := stack } (Function.update call fd c) holders where
  active := h.active
  reads := h.reads
  writes := h.writes
  nodup := hnodup
  stack := hstack
  alone t ht hmode := (h.alone t ht hmode).imp_right fun hno u hu =>
    hno u (signalled_of_update hc hu)
  next t ht hmode := (h.next t (signalled_of_update hc ht) hmode).imp_right
    fun honly u hu => honly u (signalled_of_update hc hu)

/-- A call goes to sleep. -/
theorem EntryOk.wait (hcall : call fd = .outside) :
    EntryOk f o n { e with stack := e.stack ++ [fd] } (Function.update call fd (.waiting n))
      holders := by
  have hnot : fd ∉ e.stack := by simp [h.stack, hcall]
  refine h.restack (by simp)
    (h.nodup.append (nodup_singleton fd) (disjoint_singleton.mpr hnot)) fun t => ?_
  by_cases ht : t = fd
  · simp [ht]
  · simp [ht, h.stack]

/-- A sleep ends without a signal. -/
theorem EntryOk.abort (fd : Fd) :
    EntryOk f o n { e with stack := e.stack.erase fd } (Function.update call fd .outside)
      holders := by
  refine h.restack (by simp) (h.nodup.erase fd) fun t => ?_
  by_cases ht : t = fd
  · subst ht
    simp [h.nodup.mem_erase_iff]
  · simp [ht, h.nodup.mem_erase_iff, h.stack]

/-- The top waiter is signalled. -/
theorem EntryOk.signal {rest} (htop : e.stack = fd :: rest) (hjoin : MayJoin f n e call fd) :
    EntryOk f o n { e with stack := rest } (Function.update call fd (.signalled n)) holders := by
  have hnodup := h.nodup
  rw [htop, nodup_cons] at hnodup
  constructor
  case active => exact h.active
  case reads => exact h.reads
  case writes => exact h.writes
  case nodup => exact hnodup.2
  case stack =>
    intro t
    by_cases ht : t = fd
    · simp [ht, hnodup.1]
    · have hmem := h.stack t
      rw [htop, mem_cons] at hmem
      simpa [ht] using hmem
  case alone => exact fun t ht hmode => absurd ht (hjoin.not_write hmode).1
  case next =>
    intro t ht hmode
    by_cases heq : t = fd
    · subst heq
      refine ⟨(hjoin.writer hmode).1, fun u hu => ?_⟩
      by_contra hne
      rw [update_of_ne hne] at hu
      exact (hjoin.writer hmode).2 u hu
    · rw [update_of_ne heq] at ht
      exact absurd ht (hjoin.not_write hmode).2

end

theorem filter_length_erase (p : Fd → Bool) {l : List Fd} (hmem : fd ∈ l) :
    ((l.erase fd).filter p).length + (if p fd then 1 else 0) = (l.filter p).length := by
  rw [← erase_filter]
  split
  · next hp => exact length_erase_add_one (by simp [hmem, hp])
  · next hp => rw [erase_of_not_mem (by simp [hp]), Nat.add_zero]

/-- A descriptor that has the lock gives it back. -/
theorem EntryOk.leave (h : EntryOk f o n e call holders) (hmem : fd ∈ e.activeStack) :
    EntryOk f o n (e.leave f fd) call (holders.erase fd) := by
  constructor
  case active =>
    rw [leave_activeStack, h.active, erase_filter]
  case reads =>
    have hreads := h.reads
    rw [← filter_length_erase _ hmem] at hreads
    cases hm : f.mode fd <;> simp [Fol.leave, hm] at hreads ⊢ <;> omega
  case writes =>
    have hwrites := h.writes
    rw [← filter_length_erase _ hmem] at hwrites
    cases hm : f.mode fd <;> simp [Fol.leave, hm] at hwrites ⊢ <;> omega
  case nodup =>
    rw [Fol.leave_stack]
    exact h.nodup
  case stack =>
    rw [leave_stack]
    exact h.stack
  case alone =>
    intro t ht hmode
    rw [leave_activeStack] at ht ⊢
    have halone := h.alone t (mem_of_mem_erase ht) hmode
    have heq : fd = t := by
      rw [halone.1] at hmem
      exact mem_singleton.mp hmem
    rw [halone.1, heq] at ht
    simp at ht
  case next =>
    intro t ht hmode
    have hnext := h.next t ht hmode
    rw [hnext.1] at hmem
    simp at hmem

end

/-- What the lock calls promise: a writer has the object alone, the counts are right, calls
use the entry of their object, and `fobj_lock` is free between the calls. -/
structure LockState.Safe (f : Files Fd Name) (s : LockState Fd Name) : Prop where
  exclusive : ∀ o t, t ∈ s.holders → f.name t = o → f.mode t = .write →
    (s.holders.filter fun u => f.name u = o) = [t]
  counts : ∀ o n, s.fobjTable o = some n →
    (s.fol n).readCount = (s.holders.filter fun u => f.mode u = .read ∧ f.name u = o).length ∧
    (s.fol n).writeCount = (s.holders.filter fun u => f.mode u = .write ∧ f.name u = o).length
  closed : ∀ o, s.fobjTable o = none → ∀ t ∈ s.holders, f.name t ≠ o
  entries : ∀ t n, s.call t = .waiting n ∨ s.call t = .signalled n →
    s.fobjTable (f.name t) = some n
  reserved : ∀ o n, s.fobjTable o = some n → s.reserved n = true
  free : s.fobjLock = false

structure LockState.Inv (f : Files Fd Name) (s : LockState Fd Name) : Prop where
  entry : ∀ o n, s.fobjTable o = some n → EntryOk f o n (s.fol n) s.call s.holders
  closed : ∀ o, s.fobjTable o = none → ∀ t ∈ s.holders, f.name t ≠ o
  entries : ∀ t n, s.call t = .waiting n ∨ s.call t = .signalled n →
    s.fobjTable (f.name t) = some n
  reserved : ∀ o n, s.fobjTable o = some n → s.reserved n = true
  distinct : ∀ o o' n, s.fobjTable o = some n → s.fobjTable o' = some n → o = o'
  pool : ∀ n, s.reserved n = false → s.fol n = .empty
  free : s.fobjLock = false

variable {s s' : LockState Fd Name} {o : Name} {n : Nat} {fd : Fd}

theorem LockState.Inv.safe (h : s.Inv f) : s.Safe f where
  exclusive o t ht hname hmode := by
    cases htable : s.fobjTable o with
    | none => exact absurd hname (h.closed o htable t ht)
    | some n =>
      have hentry := h.entry o n htable
      have hmem : t ∈ (s.fol n).activeStack := by
        rw [hentry.active]
        exact mem_filter.mpr ⟨ht, by simp [hname]⟩
      rw [← hentry.active]
      exact (hentry.alone t hmem hmode).1
  counts o n htable := by
    have hentry := h.entry o n htable
    have hr := hentry.reads
    have hw := hentry.writes
    rw [hentry.active, filter_filter] at hr hw
    simp only [Bool.decide_and]
    exact ⟨hr, hw⟩
  closed := h.closed
  entries := h.entries
  reserved := h.reserved
  free := h.free

/-- Two descriptors of an object that have the lock, one of them for writing. -/
theorem LockState.not_safe_of_two {t u} (ht : t ∈ s.holders) (hu : u ∈ s.holders) (hne : t ≠ u)
    (hname : f.name t = f.name u) (hmode : f.mode t = .write) : ¬s.Safe f := by
  intro hsafe
  have hone := hsafe.exclusive (f.name t) t ht rfl hmode
  have hmem : u ∈ s.holders.filter fun v => f.name v = f.name t :=
    mem_filter.mpr ⟨hu, by simp [hname]⟩
  rw [hone] at hmem
  exact hne (mem_singleton.mp hmem).symm

theorem LockState.inv_start : (LockState.start : LockState Fd Name).Inv f where
  entry o n h := by cases h
  closed o _ t ht := by cases ht
  entries t n h := by rcases h with h | h <;> cases h
  reserved o n h := by cases h
  distinct o o' n h := by cases h
  pool n _ := rfl
  free := rfl

/-- A step of one object. -/
theorem LockState.Inv.change (h : s.Inv f) (htable : s.fobjTable o = some n) {e call holders}
    (hentry : EntryOk f o n e call holders) (hcall : ∀ t, f.name t ≠ o → call t = s.call t)
    (hnew : ∀ t m, call t ≠ s.call t → call t = .waiting m ∨ call t = .signalled m → m = n)
    (hfilter : ∀ o', o' ≠ o → (holders.filter fun u => f.name u = o') = s.holders.filter fun u =>
      f.name u = o') :
    LockState.Inv f { s with fol := Function.update s.fol n e, call := call, holders := holders } := by
  have hother {o' : Name} {m : Nat} (ho : o' ≠ o) (hm : s.fobjTable o' = some m) : m ≠ n :=
    fun heq => ho (h.distinct o' o m hm (heq ▸ htable))
  have hown (t : Fd) (m : Nat) (hname : f.name t = o)
      (hm : call t = .waiting m ∨ call t = .signalled m) : m = n := by
    by_cases hsame : call t = s.call t
    · have hm' := h.entries t m (hsame ▸ hm)
      rw [hname, htable] at hm'
      exact (Option.some.inj hm').symm
    · exact hnew t m hsame hm
  constructor
  case entry =>
    intro o' m hm
    by_cases ho : o' = o
    · obtain rfl : n = m := Option.some.inj (htable.symm.trans (ho ▸ hm))
      subst ho
      simpa using hentry
    · have hne := hother ho hm
      have hold := h.entry o' m hm
      have hsame (t : Fd) (c : Nat → Call) (hc : c = .waiting ∨ c = .signalled) :
          call t = c m ↔ s.call t = c m := by
        by_cases hname : f.name t = o
        · constructor
          · intro heq
            rcases hc with rfl | rfl
            · exact absurd (hown t m hname (.inl heq)) hne
            · exact absurd (hown t m hname (.inr heq)) hne
          · intro heq
            have huse : s.fobjTable (f.name t) = some m := by
              rcases hc with rfl | rfl
              · exact h.entries t m (.inl heq)
              · exact h.entries t m (.inr heq)
            exact absurd (h.distinct _ _ m huse hm) (by rw [hname]; exact fun heq => ho heq.symm)
        · rw [hcall t hname]
      simp only [update_of_ne hne]
      constructor
      case active => rw [hold.active, hfilter o' ho]
      case reads => exact hold.reads
      case writes => exact hold.writes
      case nodup => exact hold.nodup
      case stack => exact fun t => (hold.stack t).trans (hsame t .waiting (.inl rfl)).symm
      case alone =>
        intro t ht hmode
        refine ⟨(hold.alone t ht hmode).1, fun u hu => ?_⟩
        exact (hold.alone t ht hmode).2 u ((hsame u .signalled (.inr rfl)).mp hu)
      case next =>
        intro t ht hmode
        have hnext := hold.next t ((hsame t .signalled (.inr rfl)).mp ht) hmode
        exact ⟨hnext.1, fun u hu => hnext.2 u ((hsame u .signalled (.inr rfl)).mp hu)⟩
  case closed =>
    intro o' hnone t ht hname
    have ho : o' ≠ o := fun heq => by rw [heq, htable] at hnone; cases hnone
    have hmem : t ∈ holders.filter fun u => f.name u = o' := mem_filter.mpr ⟨ht, by simp [hname]⟩
    rw [hfilter o' ho] at hmem
    exact h.closed o' hnone t (mem_filter.mp hmem).1 hname
  case entries =>
    intro t m hm
    by_cases hname : f.name t = o
    · rw [hown t m hname hm, hname]
      exact htable
    · simp only [hcall t hname] at hm
      exact h.entries t m hm
  case reserved => exact h.reserved
  case distinct => exact h.distinct
  case pool =>
    intro m hm
    have hne : m ≠ n := fun heq => by
      rw [heq] at hm
      exact absurd ((h.reserved o n htable).symm.trans hm) (by simp)
    simp only [update_of_ne hne]
    exact h.pool m hm
  case free => exact h.free

/-- A new entry is taken from the pool. -/
theorem LockState.Inv.open (h : s.Inv f) (hnone : s.fobjTable o = none)
    (hslot : s.reserved n = false) :
    LockState.Inv f
      { s with
        fobjTable := Function.update s.fobjTable o (some n)
        reserved := Function.update s.reserved n true } := by
  have hunused (t : Fd) : s.call t ≠ .waiting n ∧ s.call t ≠ .signalled n := by
    constructor <;> intro heq
    · exact absurd ((h.reserved _ _ (h.entries t n (.inl heq))).symm.trans hslot) (by simp)
    · exact absurd ((h.reserved _ _ (h.entries t n (.inr heq))).symm.trans hslot) (by simp)
  have hother {o' : Name} {m : Nat} (hm : s.fobjTable o' = some m) : m ≠ n := fun heq =>
    absurd ((h.reserved o' m hm).symm.trans (heq ▸ hslot)) (by simp)
  constructor
  case entry =>
    intro o' m hm
    by_cases ho : o' = o
    · subst ho
      obtain rfl : n = m := by simpa using hm
      have hempty : (s.holders.filter fun u => f.name u = o') = [] := by
        simpa [filter_eq_nil_iff] using h.closed o' hnone
      have hfol : s.fol n = .empty := h.pool n hslot
      constructor
      case active => exact (congrArg activeStack hfol).trans hempty.symm
      case reads => simp [hfol, empty]
      case writes => simp [hfol, empty]
      case nodup => simp [hfol, empty]
      case stack => exact fun t => by simp [hfol, empty, hunused]
      case alone => exact fun t ht => absurd ht (by simp [hfol, empty])
      case next => exact fun t ht => absurd ht (hunused t).2
    · simp only [update_of_ne ho] at hm
      exact h.entry o' m hm
  case closed =>
    intro o' ho'
    by_cases ho : o' = o
    · simp [ho] at ho'
    · simp only [update_of_ne ho] at ho'
      exact h.closed o' ho'
  case entries =>
    intro t m hm
    have htable := h.entries t m hm
    have ho : f.name t ≠ o := fun heq => by rw [heq, hnone] at htable; cases htable
    simpa only [update_of_ne ho] using htable
  case reserved =>
    intro o' m hm
    by_cases ho : o' = o
    · obtain rfl : n = m := by simpa [ho] using hm
      simp
    · simp only [update_of_ne ho] at hm
      simpa only [update_of_ne (hother hm)] using h.reserved o' m hm
  case distinct =>
    intro o₁ o₂ m h₁ h₂
    by_cases ho₁ : o₁ = o
    · obtain rfl : n = m := by simpa [ho₁] using h₁
      by_cases ho₂ : o₂ = o
      · rw [ho₁, ho₂]
      · simp only [update_of_ne ho₂] at h₂
        exact absurd rfl (hother h₂)
    · simp only [update_of_ne ho₁] at h₁
      by_cases ho₂ : o₂ = o
      · obtain rfl : n = m := by simpa [ho₂] using h₂
        exact absurd rfl (hother h₁)
      · simp only [update_of_ne ho₂] at h₂
        exact h.distinct o₁ o₂ m h₁ h₂
  case pool =>
    intro m hm
    by_cases heq : m = n
    · simp [heq] at hm
    · simp only [update_of_ne heq] at hm
      exact h.pool m hm
  case free => exact h.free

/-- The entry goes back to the pool. -/
theorem LockState.Inv.close (h : s.Inv f) {o} (htable : s.fobjTable o = some n)
    (hempty : s.fol n = .empty) (hnone : ∀ t, s.call t ≠ .signalled n) :
    LockState.Inv f
      { s with
        fobjTable := Function.update s.fobjTable o none
        reserved := Function.update s.reserved n false } := by
  have hentry := h.entry o n htable
  have hunused (t : Fd) : s.call t ≠ .waiting n := fun heq => by
    rw [← hentry.stack, hempty] at heq
    simp [empty] at heq
  have hold {o' : Name} {m : Nat} (hm : update s.fobjTable o none o' = some m) :
      s.fobjTable o' = some m ∧ m ≠ n := by
    by_cases ho : o' = o
    · simp [ho] at hm
    · rw [update_of_ne ho] at hm
      exact ⟨hm, fun heq => ho (h.distinct o' o m hm (heq ▸ htable))⟩
  constructor
  case entry => exact fun o' m hm => h.entry o' m (hold hm).1
  case closed =>
    intro o' ho' t ht hname
    by_cases ho : o' = o
    · have hactive := hentry.active
      rw [hempty] at hactive
      have hmem : t ∈ s.holders.filter fun u => f.name u = o :=
        mem_filter.mpr ⟨ht, by simp [hname, ho]⟩
      rw [← hactive] at hmem
      simp [empty] at hmem
    · simp only [update_of_ne ho] at ho'
      exact h.closed o' ho' t ht hname
  case entries =>
    intro t m hm
    have htable' := h.entries t m hm
    have ho : f.name t ≠ o := fun heq => by
      rw [heq, htable] at htable'
      cases htable'
      rcases hm with hm | hm
      · exact hunused t hm
      · exact hnone t hm
    simpa only [update_of_ne ho] using htable'
  case reserved =>
    intro o' m hm
    simpa only [update_of_ne (hold hm).2] using h.reserved o' m (hold hm).1
  case distinct => exact fun o₁ o₂ m h₁ h₂ => h.distinct o₁ o₂ m (hold h₁).1 (hold h₂).1
  case pool =>
    intro m hm
    by_cases heq : m = n
    · rw [heq]
      exact hempty
    · simp only [update_of_ne heq] at hm
      exact h.pool m hm
  case free => exact h.free

end LStore.Os
