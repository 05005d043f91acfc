import LStore.Segment.CopySpec
import LStore.Segment.FileCopy

/-!
# What uploads and downloads move

A download is a copy that also stops at the first failure. An upload leaves its loop when its
remainder reaches zero, and then the block read last is still in the buffer: it is exact
unless the request is longer than the first block and the file is not shorter than the
request.
-/

namespace LStore.Segment

open ByteCopy Base.Fuel Gop CopyState

variable {blockSize : Int}

/-- The lengths of a plan are positive and two halves fit in the buffer. -/
structure BlockPlan.Fits (plan : BlockPlan) (bufsize : Int) : Prop where
  base_pos : 0 < plan.baseLen
  base_le : plan.baseLen ≤ plan.initialLen
  initial_le : plan.initialLen ≤ plan.bufsize
  room : 2 * plan.bufsize ≤ bufsize

theorem blockPlan_fits {bufsize} (offset : Int) (hbuf : 2 ≤ bufsize) (hblock : 1 ≤ blockSize) :
    (blockPlan bufsize offset blockSize).Fits bufsize := by
  have hmod := Int.emod_nonneg offset (show blockSize ≠ 0 by omega)
  have hlt := Int.emod_lt_of_pos offset (show 0 < blockSize by omega)
  rw [blockPlan]
  split_ifs with htlen
  · constructor <;> simp only <;> omega
  · have hone : 1 * blockSize ≤ (bufsize / 2 / blockSize - 1) * blockSize :=
      Int.mul_le_mul_of_nonneg_right (by omega) (by omega)
    have hall : bufsize / 2 / blockSize * blockSize ≤ bufsize / 2 :=
      Int.ediv_mul_le _ (by omega)
    rw [Int.sub_mul] at *
    constructor <;> simp only <;> omega

/-- A transfer of `n` bytes from `a` to `d` that ended in success. -/
structure Moved (a d : Int) (src dest : Flat) (n bufsize : Int) (r : FileResult) : Prop where
  success : r.status.opStatus = .success
  bytes : Agree r.dest.data d src.data a n
  kept : ∀ x, ¬(d ≤ x ∧ x < d + n) → r.dest.data x = dest.data x
  drains : ∀ t ∈ r.log, t.dir = .drain → d ≤ t.pos ∧ t.pos + t.len ≤ d + n
  room : ∀ t ∈ r.log, 0 ≤ t.buf ∧ t.buf + t.len ≤ bufsize

/-- The result is exact when every read and write of data succeeded and a failure when one
did not. -/
def Faithful (a d : Int) (src dest : Flat) (n bufsize : Int) (r : FileResult) : Prop :=
  (r.failed = false → Moved a d src dest n bufsize r) ∧
    (r.failed = true → r.status.opStatus = .failure)

/-- The turn that writes the last of `n` bytes. -/
def BlockPlan.IsLastTurn (plan : BlockPlan) (n : Int) (k : Nat) : Prop :=
  n ≤ plan.initialLen + k * plan.baseLen ∧ ∀ j < k, plan.initialLen + j * plan.baseLen < n

/-- The first step of a download of `n` bytes that fails is its last write. -/
def OnlyLastWriteFails (env : GetEnv) (plan : BlockPlan) (n : Int) : Prop :=
  ∃ k, plan.IsLastTurn n k ∧ (∀ j ≤ k, env.readOk j = true) ∧
    (∀ j < k, env.written j = none) ∧ env.written k ≠ none

variable {env : GetEnv} {plan : BlockPlan} {src file : Flat} {a n bufsize : Int} {s : FileState}

/-- What holds at the head of the loop of a download. -/
structure GetHead (env : GetEnv) (plan : BlockPlan) (src file : Flat) (a n : Int)
    (s : FileState) : Prop extends PipeHead a 0 src file plan.bufsize n s.toCopyState where
  turns : s.nbytes = max 0 (n - plan.initialLen - s.turn * plan.baseLen)
  before : ∀ j < s.turn, plan.initialLen + j * plan.baseLen < n
  reads : ∀ j ≤ s.turn, env.readOk j = true
  writes : ∀ j < s.turn, env.written j = none
  ok : s.failed = false

theorem BlockPlan.IsLastTurn.unique {k k'} (h : plan.IsLastTurn n k) (h' : plan.IsLastTurn n k') :
    k = k' := by
  rcases lt_trichotomy k k' with hlt | heq | hlt
  · have := h'.2 k hlt
    have := h.1
    omega
  · exact heq
  · have := h.2 k' hlt
    have := h'.1
    omega

/-- A step that fails before the last write. -/
theorem not_onlyLastWriteFails {k : Nat} (hk : plan.initialLen + k * plan.baseLen < n)
    (hbase : 0 < plan.baseLen) (hfail : env.written k ≠ none ∨ env.readOk (k + 1) = false) :
    ¬OnlyLastWriteFails env plan n := by
  rintro ⟨m, hm, hreads, hwrites, _⟩
  have hkm : k < m := by
    by_contra hle
    have hmul : (m : Int) * plan.baseLen ≤ k * plan.baseLen :=
      Int.mul_le_mul_of_nonneg_right (by omega) (by omega)
    have := hm.1
    omega
  rcases hfail with hfail | hfail
  · exact hfail (hwrites k hkm)
  · rw [hreads (k + 1) hkm] at hfail
    simp at hfail

theorem dioWritten_ne {outcome nbytes} : nbytes ≠ dioWritten outcome nbytes ↔ outcome ≠ none := by
  cases outcome with
  | none => simp [dioWritten]
  | some got =>
    have hlt : dioWritten (some got) nbytes < nbytes := by
      simp only [dioWritten]
      omega
    simp [ne_of_gt hlt]

theorem dioWritten_none (nbytes : Int) : dioWritten none nbytes = nbytes := rfl

/-- A turn without failures leads to the head of the loop again. -/
theorem GetHead.next (hplan : plan.Fits bufsize) (h : GetHead env plan src file a n s)
    (hpos : 0 < s.nbytes) (hw : env.written s.turn = none) (hr : env.readOk (s.turn + 1) = true)
    (w : Bool) (fpos : Int) :
    GetHead env plan src file a n
      { s.swap.both w src s.rpos (min s.nbytes plan.baseLen) s.rlen with
        rpos := s.rpos + min s.nbytes plan.baseLen
        nbytes := s.nbytes - min s.nbytes plan.baseLen
        rlen := min s.nbytes plan.baseLen, turn := s.turn + 1, fpos, failed := false } := by
  obtain ⟨hbase, hbaseInit, hinit, _⟩ := hplan
  have hturns := h.turns
  have hmul : ((s.turn + 1 : Nat) : Int) * plan.baseLen = s.turn * plan.baseLen + plan.baseLen := by
    rw [Int.natCast_add, add_mul]
    simp
  have hk : 0 ≤ min s.nbytes plan.baseLen ∧ min s.nbytes plan.baseLen ≤ plan.bufsize := by omega
  have hhead := h.toPipeHead.next w (s.turn + 1) hk (by omega)
  refine { hhead with turns := ?_, before := ?_, reads := ?_, writes := ?_, ok := rfl }
  · simp only [hmul]
    omega
  · intro j hj
    rcases Nat.lt_succ_iff_lt_or_eq.mp hj with hj | rfl
    · exact h.before j hj
    · omega
  · intro j hj
    rcases Nat.le_succ_iff.mp hj with hj | rfl
    · exact h.reads j hj
    · exact hr
  · intro j hj
    rcases Nat.lt_succ_iff_lt_or_eq.mp hj with hj | rfl
    · exact h.writes j hj
    · exact hw

/-- The last block completes the transfer. -/
theorem Piped.moved {d bufsize B dest c r} (h : Piped a d src dest B n c) (hend : c.wpos = d + n)
    (hroom : 2 * B ≤ bufsize) (hs : r.status.opStatus = .success)
    (hdest : r.dest.data = c.dest.data) (hlog : r.log = c.log) :
    Moved a d src dest n bufsize r := by
  constructor
  case success => exact hs
  case bytes =>
    have hcopied := h.copied
    rw [hend, show d + n - d = n by omega] at hcopied
    rwa [hdest]
  case kept =>
    intro x hx
    rw [hdest]
    exact h.kept x (by rwa [hend])
  case drains =>
    rw [hlog]
    exact h.drains
  case room =>
    intro t ht
    rw [hlog] at ht
    have := h.room t ht
    omega

theorem swap_fields (c : CopyState) : c.swap.nbytes = c.nbytes ∧ c.swap.turn = c.turn ∧
    c.swap.wlen = c.rlen ∧ c.swap.rpos = c.rpos := ⟨rfl, rfl, rfl, rfl⟩

theorem GetHead.turn (hplan : plan.Fits bufsize) (h : GetHead env plan src file a n s) :
    Ends (OnlyLastWriteFails env plan n) (fun _ => getTurn env src plan.baseLen s)
      (Turn (GetHead env plan src file a n) (· < ·) (fun s => s.nbytes.toNat)
        (fun r => ¬OnlyLastWriteFails env plan n ∧ Faithful a 0 src file n bufsize r) s) := by
  have hbase := hplan.base_pos
  have hleft := h.left
  have hturns := h.turns
  have hlen : blockLen s.nbytes plan.baseLen = min s.nbytes plan.baseLen :=
    blockLen_of_nonneg _ hleft
  simp only [getTurn, swap_fields, hlen, h.ok, Bool.false_or]
  by_cases hpos : 0 < min s.nbytes plan.baseLen
  · have hnext : plan.initialLen + s.turn * plan.baseLen < n := by omega
    by_cases hw : env.written s.turn = none
    · simp only [hw, dioWritten_none, ne_eq, not_true, decide_false, if_false, Bool.false_or]
      cases hr : env.readOk (s.turn + 1) with
      | false =>
        simp only [hpos, and_self, if_true, decide_true]
        apply Ends.ok
        refine ⟨not_onlyLastWriteFails hnext hbase (.inr hr), ?_, fun _ => rfl⟩
        exact fun hf => absurd hf (by simp [FileState.result])
      | true =>
        simp only [hpos, Bool.true_eq_false, and_false, if_false, if_true, decide_false]
        apply Ends.ok
        refine ⟨h.next hplan (by omega) hw hr _ _, ?_⟩
        simp only
        omega
    · -- the write of this turn fails while a read is under way
      have hne : s.rlen ≠ dioWritten (env.written s.turn) s.rlen := dioWritten_ne.mpr hw
      simp only [hpos, hne, ne_eq, not_false_eq_true, if_true, decide_true, Bool.true_or]
      apply Ends.ok
      refine ⟨not_onlyLastWriteFails hnext hbase (.inl hw), ?_, fun _ => rfl⟩
      exact fun hf => absurd hf (by simp [FileState.result])
  · have hlast : plan.IsLastTurn n s.turn := ⟨by omega, h.before⟩
    by_cases hw : env.written s.turn = none
    · simp only [hpos, hw, dioWritten_none, ne_eq, not_true, if_false, false_and, decide_false,
        Bool.or_false]
      apply Ends.ok
      refine ⟨?_, fun _ => ?_, fun hf => absurd hf (by simp [FileState.result])⟩
      · rintro ⟨k, hk, _, _, hfail⟩
        rw [hk.unique hlast] at hfail
        exact hfail hw
      · obtain ⟨hpiped, hend⟩ := h.toPipeHead.last (by omega)
        exact hpiped.moved hend hplan.room rfl rfl rfl
    · -- the last write fails with no read to wait for
      have hne : s.rlen ≠ dioWritten (env.written s.turn) s.rlen := dioWritten_ne.mpr hw
      simp only [hpos, hne, ne_eq, not_false_eq_true, if_true, if_false]
      exact .inl ⟨⟨s.turn, hlast, h.reads, h.writes, hw⟩, 0, fun _ _ => rfl⟩

theorem getHead_getStart {sc} (hplan : plan.Fits bufsize) (hoff : sc.srcOffset ≤ src.size)
    (hlen : sc.len = -1 ∨ 1 ≤ sc.len) (mem : Int → Byte) (hr : env.readOk 0 = true) :
    GetHead env plan src file sc.srcOffset (copyCount sc src)
      (getStart env src sc plan mem file) := by
  obtain ⟨hbase, hbaseInit, hinit, _⟩ := hplan
  have hcount : (if 0 < sc.len ∧ src.size - sc.srcOffset > sc.len then sc.len
      else src.size - sc.srcOffset) = copyCount sc src := by
    rw [copyCount]
    split <;> split <;> omega
  have hn : 0 ≤ copyCount sc src := by
    rw [copyCount]
    split <;> omega
  have hfirst := blockLen_of_nonneg plan.initialLen hn
  have hhead : PipeHead sc.srcOffset 0 src file plan.bufsize (copyCount sc src)
      (getStart env src sc plan mem file).toCopyState := by
    simp only [getStart, hcount, hfirst]
    exact .start (.start rfl rfl rfl rfl rfl hn) rfl (by simp only; omega) (by simp only; omega)
      rfl rfl
  simp only [getStart, hcount, hfirst, hr, Bool.not_true] at hhead ⊢
  refine { hhead with
    turns := ?_, before := by simp [fill], reads := ?_, writes := by simp [fill], ok := rfl }
  · simp only [fill, Int.natCast_zero, Int.zero_mul]
    omega
  · intro j hj
    rw [Nat.le_zero.mp hj]
    exact hr

/-- A download ends, unless the only step that fails is its last write. -/
theorem segmentGet_ends {sc} (hblock : 1 ≤ blockSize) (hbuf : 2 ≤ sc.bufsize)
    (hoff : sc.srcOffset ≤ src.size) (hlen : sc.len = -1 ∨ 1 ≤ sc.len) (mem : Int → Byte) :
    Ends
      (OnlyLastWriteFails env (blockPlan sc.bufsize sc.srcOffset blockSize) (copyCount sc src))
      (segmentGetGopFunc env src sc blockSize file mem)
      (fun r =>
        ¬OnlyLastWriteFails env (blockPlan sc.bufsize sc.srcOffset blockSize)
          (copyCount sc src) ∧
        Faithful sc.srcOffset 0 src file (copyCount sc src) sc.bufsize r) := by
  have hplan := blockPlan_fits sc.srcOffset hbuf hblock
  unfold segmentGetGopFunc
  cases hr : env.readOk 0 with
  | false =>
    apply Ends.ok
    refine ⟨?_, fun hf => absurd hf (by simp [getStart, FileState.result, hr]), fun _ => rfl⟩
    rintro ⟨k, _, hreads, _⟩
    rw [hreads 0 (Nat.zero_le k)] at hr
    simp at hr
  | true =>
    exact Ends.loop wellFounded_lt (fun s hs => hs.turn hplan)
      (getHead_getStart hplan hoff hlen mem hr)

variable {env : PutEnv} {dest : Flat} {d B : Int}

/-- What holds at the head of the loop of an upload to `d`: `n` bounds what is read. -/
structure PutHead (file dest : Flat) (d B n : Int) (s : FileState) : Prop
    extends Piped 0 d file dest B n s.toCopyState where
  rlen : 0 ≤ s.rlen ∧ s.rlen ≤ B
  block : Agree s.mem s.rbuf file.data (0 + (s.wpos - d)) s.rlen
  fpos : s.fpos = s.wpos - d + s.rlen
  fpos_le : s.fpos ≤ n
  ok : s.failed = false

/-- The variables after a turn that read `k` bytes. -/
def putNext (file : Flat) (w : Bool) (k : Int) (s : FileState) : FileState :=
  { s.swap.both w file s.fpos k s.rlen with
    rpos := s.rpos + k, nbytes := if s.nbytes > 0 then s.nbytes - k else s.nbytes
    rlen := k, turn := s.turn + 1, fpos := s.fpos + k, failed := false }

theorem PutHead.wpos_next {k} (h : PutHead file dest d B n s) (w : Bool) :
    (putNext file w k s).wpos = d + s.fpos := by
  have hfpos := h.fpos
  have hwpos : (s.swap.both w file s.fpos k s.rlen).wpos = s.wpos + s.rlen :=
    wpos_both w file s.fpos k s.rlen s.swap
  simp only [putNext, hwpos]
  omega

theorem PutHead.next {k} (h : PutHead file dest d B n s) (w : Bool) (hk : 0 ≤ k ∧ k ≤ B)
    (hkn : s.fpos + k ≤ n) : PutHead file dest d B n (putNext file w k s) := by
  have hfpos := h.fpos
  have hboth : Piped 0 d file dest B n (s.swap.both w file s.fpos k s.rlen) ∧
      Agree (s.swap.both w file s.fpos k s.rlen).mem (s.swap.both w file s.fpos k s.rlen).rbuf
        file.data s.fpos k :=
    h.toPiped.swap.both hk h.rlen (by simp only [swap]; omega) h.block
  refine { hboth.1 with rlen := hk, block := ?_, fpos := ?_, fpos_le := hkn, ok := rfl }
  · rw [h.wpos_next w, zero_add, add_sub_cancel_left]
    exact hboth.2
  · rw [h.wpos_next w, add_sub_cancel_left]
    rfl

/-- The end of the loop: all `n` bytes are in place, or a failure is reported. -/
def PutEnd (file dest : Flat) (d B n : Int) (r : OpStatus × FileState) : Prop :=
  (r.2.failed = false → r.1 = gopSuccessStatus ∧
    Piped 0 d file dest B n r.2.toCopyState ∧ r.2.wpos = d + n) ∧
  (r.2.failed = true → r.1 = gopFailureStatus)

/-- One turn that asks for more bytes: it fails, or it goes on after `dioRead` more bytes
unless none came or the remainder is used up. -/
theorem putTurn_asked {k} (env : PutEnv) (plan : BlockPlan) (h : PutHead file dest d B n s)
    (hask : 0 < blockLen s.nbytes plan.baseLen)
    (hk : dioRead file s.fpos (blockLen s.nbytes plan.baseLen) = k) :
    (∃ s', putTurn env file plan.baseLen s = .ok (.inr (gopFailureStatus, s')) ∧
      s'.failed = true ∧ ¬(env.readOk (s.turn + 1) = true ∧ env.writeOk s.turn = true)) ∨
    ∃ w, putTurn env file plan.baseLen s =
      if 0 < k ∧ (putNext file w k s).nbytes ≠ 0 then .ok (.inl (putNext file w k s))
      else .ok (.inr (gopSuccessStatus, putNext file w k s)) := by
  simp only [putTurn, swap_fields, hask, hk, true_and, if_true, h.ok, Bool.false_or]
  cases hr : env.readOk (s.turn + 1) with
  | false => exact .inl ⟨_, rfl, rfl, by simp⟩
  | true =>
    cases hw : env.writeOk s.turn with
    | false => exact .inl ⟨_, rfl, rfl, by simp⟩
    | true => exact .inr ⟨env.writeFirst s.turn, rfl⟩

/-- An upload that never uses up its remainder before the end of the file: the remainder is
unknown, or longer than what is left of the file. -/
theorem PutHead.turn_open (hplan : plan.Fits bufsize)
    (h : PutHead file dest d plan.bufsize file.size s ∧
      (s.nbytes < 0 ∨ file.size - s.fpos < s.nbytes)) :
    Ends False (fun _ => putTurn env file plan.baseLen s)
      (Turn
        (fun s => PutHead file dest d plan.bufsize file.size s ∧
          (s.nbytes < 0 ∨ file.size - s.fpos < s.nbytes))
        (· < ·) (fun s => (file.size - s.fpos).toNat)
        (PutEnd file dest d plan.bufsize file.size) s) := by
  obtain ⟨h, hopen⟩ := h
  obtain ⟨hbase, hbaseInit, hinit, _⟩ := hplan
  have hfpos := h.fpos_le
  obtain ⟨_, hle, hask⟩ := blockLen_bounds s.nbytes hbase
  have hpos := hask (by omega)
  obtain ⟨k, hk⟩ : ∃ k, k = min (blockLen s.nbytes plan.baseLen) (file.size - s.fpos) := ⟨_, rfl⟩
  rcases putTurn_asked env plan h hpos hk.symm with ⟨s', hturn, hfail, _⟩ | ⟨w, hturn⟩
  · rw [hturn]
    apply Ends.ok
    exact ⟨fun hf => absurd hf (by simp [hfail]), fun _ => rfl⟩
  · rw [hturn]
    have hnext : PutHead file dest d plan.bufsize file.size (putNext file w k s) :=
      h.next w (by omega) (by omega)
    have hopen' : (putNext file w k s).nbytes < 0 ∨
        file.size - (putNext file w k s).fpos < (putNext file w k s).nbytes := by
      simp only [putNext]
      split <;> omega
    split
    · next hgo =>
        apply Ends.ok
        refine ⟨⟨hnext, hopen'⟩, ?_⟩
        simp only [putNext]
        omega
    · next hstop =>
        apply Ends.ok
        refine ⟨fun _ => ⟨rfl, hnext.toPiped, ?_⟩, fun hf => absurd hf (by simp [putNext])⟩
        have hzero : k = 0 := by
          have hle := hnext.fpos_le
          by_contra hne
          exact hstop ⟨by omega, by omega⟩
        rw [h.wpos_next w]
        omega

/-- An upload without a remainder writes the block it has. -/
theorem PutHead.turn_closed (h : PutHead file dest d B n s) (env : PutEnv) (plan : BlockPlan)
    (hzero : s.nbytes = 0) (hn : s.fpos = n) :
    ∃ r, putTurn env file plan.baseLen s = .ok (.inr r) ∧ PutEnd file dest d B n r := by
  have hfpos := h.fpos
  have hlen : blockLen s.nbytes plan.baseLen ≤ 0 := by
    rw [blockLen_of_nonneg _ (by omega)]
    omega
  have hdrain : Piped 0 d file dest B n (s.swap.drain s.rlen) :=
    h.toPiped.swap.drain h.rlen (by simp only [swap]; omega) h.block
  have hend : (s.swap.drain s.rlen).wpos = d + n := by
    simp only [drain, swap]
    omega
  simp only [putTurn, swap_fields, not_lt.mpr hlen, false_and, if_false, h.ok, Bool.false_or]
  cases hw : env.writeOk s.turn with
  | false => exact ⟨_, rfl, fun hf => absurd hf (by simp), fun _ => rfl⟩
  | true => exact ⟨_, rfl, fun _ => ⟨rfl, { hdrain with }, hend⟩, fun hf => absurd hf (by simp)⟩

/-- An upload that uses up its remainder inside the file: the turn that does so leaves the
loop with the block it read still in the buffer. -/
theorem PutHead.turn_lost {len} (hplan : plan.Fits bufsize) (hr : ∀ k, env.readOk k = true)
    (hw : ∀ k, env.writeOk k = true) (hlen : len ≤ file.size)
    (h : PutHead file dest d plan.bufsize len s ∧ 0 < s.nbytes ∧ s.nbytes = len - s.fpos) :
    Ends False (fun _ => putTurn env file plan.baseLen s)
      (Turn
        (fun s => PutHead file dest d plan.bufsize len s ∧ 0 < s.nbytes ∧ s.nbytes = len - s.fpos)
        (· < ·) (fun s => s.nbytes.toNat)
        (fun r => r.2.failed = false ∧ r.2.dest.data (d + len - 1) = dest.data (d + len - 1)) s) := by
  obtain ⟨h, hpos, hnbytes⟩ := h
  obtain ⟨hbase, hbaseInit, hinit, _⟩ := hplan
  have hask : blockLen s.nbytes plan.baseLen = min s.nbytes plan.baseLen :=
    blockLen_of_nonneg _ (by omega)
  have hread : dioRead file s.fpos (blockLen s.nbytes plan.baseLen) = min s.nbytes plan.baseLen := by
    rw [hask, dioRead]
    omega
  obtain ⟨k, hk⟩ : ∃ k, k = min s.nbytes plan.baseLen := ⟨_, rfl⟩
  rcases putTurn_asked env plan h (by omega) (hread.trans hk.symm) with
    ⟨s', _, _, hfail⟩ | ⟨w, hturn⟩
  · exact absurd ⟨hr _, hw _⟩ hfail
  · rw [hturn]
    have hnext : PutHead file dest d plan.bufsize len (putNext file w k s) :=
      h.next w (by omega) (by omega)
    have hleft : (putNext file w k s).nbytes = s.nbytes - k := if_pos hpos
    split_ifs with hgo
    · apply Ends.ok
      refine ⟨⟨hnext, by omega, ?_⟩, ?_⟩
      · simp only [putNext]
        omega
      · simp only [hleft]
        omega
    · apply Ends.ok
      refine ⟨rfl, hnext.kept _ ?_⟩
      rw [h.wpos_next w]
      omega

/-- The number of bytes an upload is asked for. -/
def putCount (sc : SegmentCopy) (file : Flat) : Int :=
  if sc.len = -1 then file.size else min sc.len file.size

variable {sc : SegmentCopy}

section

variable (hplan : plan.Fits bufsize) (hsize : 0 ≤ file.size) (dest : Flat) (mem : Int → Byte)
include hplan hsize

theorem putHead_putStart (hr : env.readOk 0 = true) (hn : 0 ≤ n)
    (hgot : dioRead file 0 (blockLen sc.len plan.initialLen) ≤ n) :
    PutHead file dest sc.destOffset plan.bufsize n (putStart env file sc plan mem dest) := by
  obtain ⟨hbase, hbaseInit, hinit, _⟩ := hplan
  obtain ⟨hask, hle, _⟩ := blockLen_bounds sc.len (hbase.trans_le hbaseInit)
  have hread : 0 ≤ dioRead file 0 (blockLen sc.len plan.initialLen) ∧
      dioRead file 0 (blockLen sc.len plan.initialLen) ≤ plan.bufsize := by
    simp only [dioRead]
    omega
  simp only [putStart, hr, Bool.not_true]
  generalize dioRead file 0 (blockLen sc.len plan.initialLen) = got at hgot hread
  refine
    { Piped.fill ?_ hread with
      rlen := hread, block := ?_, fpos := ?_, fpos_le := hgot, ok := rfl }
  · refine .start rfl rfl rfl rfl ?_ hn
    simp only
    split <;> simp only [Flat.data_truncate]
  · simp only [fill, sub_self, add_zero]
    exact Agree.copyBytes file.data mem 0 0 _
  · simp only [fill]
    omega

omit hplan hsize in
theorem putStart_counts (env file sc plan mem dest) :
    (putStart env file sc plan mem dest).nbytes =
        (if sc.len > 0 then sc.len - blockLen sc.len plan.initialLen else sc.len) ∧
      (putStart env file sc plan mem dest).fpos =
        dioRead file 0 (blockLen sc.len plan.initialLen) :=
  ⟨rfl, rfl⟩

/-- The loop of an upload whose request is not longer than the first block, or longer than the
file. -/
theorem putLoop_ends (hlen : sc.len = -1 ∨ 1 ≤ sc.len) (hr : env.readOk 0 = true)
    (hfit : ¬(plan.initialLen < sc.len ∧ sc.len ≤ file.size)) :
    Ends False
      (fun fuel => loop (putTurn env file plan.baseLen) fuel (putStart env file sc plan mem dest))
      (PutEnd file dest sc.destOffset plan.bufsize (putCount sc file)) := by
  have hplan' := hplan
  have hread : dioRead file 0 (blockLen sc.len plan.initialLen) =
      min (blockLen sc.len plan.initialLen) file.size := by
    simp only [dioRead]
    omega
  obtain ⟨hnbytes, hfpos⟩ := putStart_counts env file sc plan mem dest
  by_cases hclosed : 0 < sc.len ∧ sc.len ≤ plan.initialLen
  · have hask : blockLen sc.len plan.initialLen = sc.len := by
      rw [blockLen_of_nonneg _ (by omega)]
      omega
    have hcount : putCount sc file = min sc.len file.size := by
      rw [putCount, if_neg (by omega)]
    rw [hask] at hread hfpos hnbytes
    have hhead : PutHead file dest sc.destOffset plan.bufsize (putCount sc file)
        (putStart env file sc plan mem dest) :=
      putHead_putStart hplan' hsize dest mem hr (by omega) (by rw [hask]; omega)
    obtain ⟨r, hturn, hend⟩ := hhead.turn_closed env plan (by omega) (by omega)
    refine .inr ⟨r, ⟨1, fun m hm => ?_⟩, hend⟩
    obtain ⟨m, rfl⟩ : ∃ j, m = j + 1 := ⟨m - 1, by omega⟩
    simp [loop, hturn]
  · have hcount : putCount sc file = file.size := by
      rw [putCount]
      split <;> omega
    rw [hcount]
    have hhead : PutHead file dest sc.destOffset plan.bufsize file.size
        (putStart env file sc plan mem dest) :=
      putHead_putStart hplan' hsize dest mem hr hsize (by omega)
    refine Ends.loop wellFounded_lt (fun s hs => PutHead.turn_open hplan' hs) ⟨hhead, ?_⟩
    rw [hnbytes, hfpos, hread]
    by_cases hneg : sc.len < 0
    · left
      omega
    · right
      rw [if_pos (by omega), blockLen_of_nonneg _ (by omega)]
      omega

theorem putLoop_lost (hr : ∀ k, env.readOk k = true) (hw : ∀ k, env.writeOk k = true)
    (hlost : plan.initialLen < sc.len ∧ sc.len ≤ file.size) :
    Ends False
      (fun fuel => loop (putTurn env file plan.baseLen) fuel (putStart env file sc plan mem dest))
      (fun r => r.2.failed = false ∧
        r.2.dest.data (sc.destOffset + sc.len - 1) = dest.data (sc.destOffset + sc.len - 1)) := by
  have hplan' := hplan
  obtain ⟨hbase, hbaseInit, hinit, _⟩ := hplan
  have hask : blockLen sc.len plan.initialLen = plan.initialLen := by
    rw [blockLen_of_nonneg _ (by omega)]
    omega
  have hread : dioRead file 0 plan.initialLen = plan.initialLen := by
    simp only [dioRead]
    omega
  obtain ⟨hnbytes, hfpos⟩ := putStart_counts env file sc plan mem dest
  have hhead : PutHead file dest sc.destOffset plan.bufsize sc.len
      (putStart env file sc plan mem dest) :=
    putHead_putStart hplan' hsize dest mem (hr 0) (by omega) (by rw [hask, hread]; omega)
  rw [hask, hread] at hfpos
  exact Ends.loop wellFounded_lt (fun s hs => PutHead.turn_lost hplan' hr hw hlost.2 hs)
    ⟨hhead, by omega, by omega⟩

end

/-- An upload ends and is exact, or reports its failure, unless it loses its last block. -/
theorem segmentPut_ends (hblock : 1 ≤ blockSize) (hbuf : 2 ≤ sc.bufsize)
    (hlen : sc.len = -1 ∨ 1 ≤ sc.len) (hsize : 0 ≤ file.size) (dest : Flat) (mem : Int → Byte)
    (hfit : ¬((blockPlan sc.bufsize sc.destOffset blockSize).initialLen < sc.len ∧
      sc.len ≤ file.size)) :
    Ends False (segmentPutGopFunc env file sc blockSize dest mem)
      (Faithful 0 sc.destOffset file dest (putCount sc file) sc.bufsize) := by
  have hplan := blockPlan_fits sc.destOffset hbuf hblock
  unfold segmentPutGopFunc
  cases hr : env.readOk 0 with
  | false =>
    apply Ends.ok
    exact ⟨fun hf => absurd hf (by simp [putStart, FileState.result, hr]), fun _ => rfl⟩
  | true =>
    simp only [Bool.true_eq_false, if_false]
    apply Ends.bind (putLoop_ends hplan hsize dest mem hlen hr hfit)
    rintro ⟨status, s⟩ ⟨hok, hfail⟩
    have hmoved (hf : s.failed = false) {r : FileResult} (hs : r.status = status)
        (hdest : r.dest.data = s.dest.data) (hlog : r.log = s.log) :
        Moved 0 sc.destOffset file dest (putCount sc file) sc.bufsize r := by
      obtain ⟨hstatus, hpiped, hend⟩ := hok hf
      have hsuccess : status = gopSuccessStatus := hstatus
      exact hpiped.moved hend hplan.room (by rw [hs, hsuccess]; rfl) hdest hlog
    have hreport (hf : s.failed = true) : status.opStatus = .failure := by
      have hstatus : status = gopFailureStatus := hfail hf
      rw [hstatus]
      rfl
    split
    · apply Ends.ok
      exact ⟨fun hf => hmoved hf rfl (Flat.data_truncate _ _) rfl, hreport⟩
    · apply Ends.ok
      exact ⟨fun hf => hmoved hf rfl rfl rfl, hreport⟩

/-- An upload that uses up its request inside the file returns without the last byte. -/
theorem segmentPut_lost (hblock : 1 ≤ blockSize) (hbuf : 2 ≤ sc.bufsize) (hsize : 0 ≤ file.size)
    (dest : Flat) (mem : Int → Byte) (hr : ∀ k, env.readOk k = true)
    (hw : ∀ k, env.writeOk k = true)
    (hlost : (blockPlan sc.bufsize sc.destOffset blockSize).initialLen < sc.len ∧
      sc.len ≤ file.size) :
    Ends False (segmentPutGopFunc env file sc blockSize dest mem)
      (fun r => r.failed = false ∧
        r.dest.data (sc.destOffset + sc.len - 1) = dest.data (sc.destOffset + sc.len - 1)) := by
  have hplan := blockPlan_fits sc.destOffset hbuf hblock
  unfold segmentPutGopFunc
  simp only [hr 0, Bool.true_eq_false, if_false]
  apply Ends.bind (putLoop_lost hplan hsize dest mem hr hw hlost)
  rintro ⟨status, s⟩ ⟨hok, hdata⟩
  split
  · apply Ends.ok
    exact ⟨hok, by rw [Flat.data_truncate]; exact hdata⟩
  · apply Ends.ok
    exact ⟨hok, hdata⟩

/-- An upload of the request is exact into every segment, and reports every failure. -/
def PutMoves (sc : SegmentCopy) (blockSize : Int) (file : Flat) : Prop :=
  ∀ (env : PutEnv) (dest : Flat) (mem : Int → Byte),
    ∃ r, Settles (segmentPutGopFunc env file sc blockSize dest mem) (.ok r) ∧
      Faithful 0 sc.destOffset file dest (putCount sc file) sc.bufsize r

/-- A download of the request is exact into every file, or reports the failure it meets. -/
def GetMoves (env : GetEnv) (sc : SegmentCopy) (blockSize : Int) (src : Flat) : Prop :=
  ∀ (file : Flat) (mem : Int → Byte),
    ∃ r, Settles (segmentGetGopFunc env src sc blockSize file mem) (.ok r) ∧
      Faithful sc.srcOffset 0 src file (copyCount sc src) sc.bufsize r

/-- The request is longer than the first block, and the file is not shorter than it. -/
def LastBlockLost (sc : SegmentCopy) (blockSize : Int) (file : Flat) : Prop :=
  (blockPlan sc.bufsize sc.destOffset blockSize).initialLen < sc.len ∧ sc.len ≤ file.size

theorem not_putMoves {sc file} (hblock : 1 ≤ blockSize) (hbuf : 2 ≤ sc.bufsize)
    (hsize : 0 ≤ file.size) (hlen : 1 ≤ sc.len) (hlost : LastBlockLost sc blockSize file) :
    ¬PutMoves sc blockSize file := by
  intro hmoves
  let dest : Flat := ⟨0, fun x => file.data (x - sc.destOffset) + 1⟩
  let env : PutEnv := ⟨fun _ => true, fun _ => true, fun _ => true⟩
  obtain ⟨r, hr, hmoved, _⟩ := hmoves env dest fun _ => 0
  obtain ⟨hok, hdata⟩ := (segmentPut_lost hblock hbuf hsize dest (fun _ => 0) (fun _ => rfl)
    (fun _ => rfl) hlost).of_settles hr
  have hcount : putCount sc file = sc.len := by
    have := hlost.2
    rw [putCount, if_neg (by omega)]
    omega
  have hbyte := (hmoved hok).bytes (sc.len - 1) (by omega) (by omega)
  rw [show sc.destOffset + (sc.len - 1) = sc.destOffset + sc.len - 1 by omega, hdata,
    zero_add] at hbyte
  simp only [dest, show sc.destOffset + sc.len - 1 - sc.destOffset = sc.len - 1 by omega] at hbyte
  simp at hbyte

theorem not_getMoves {env sc src} (hblock : 1 ≤ blockSize) (hbuf : 2 ≤ sc.bufsize)
    (hoff : sc.srcOffset ≤ src.size) (hlen : sc.len = -1 ∨ 1 ≤ sc.len)
    (hfail : OnlyLastWriteFails env (blockPlan sc.bufsize sc.srcOffset blockSize) (copyCount sc
      src)) : ¬GetMoves env sc blockSize src := by
  intro hmoves
  obtain ⟨r, hr, _⟩ := hmoves ⟨0, fun _ => 0⟩ fun _ => 0
  exact ((segmentGet_ends hblock hbuf hoff hlen _).of_settles hr).1 hfail

/-- Uploads and downloads move exactly the bytes asked for and report every failure if and only
if the upload does not lose its last block and the download does not fail in its last write
alone. -/
theorem fileCopy_exact_iff (pc gc : SegmentCopy) (pblock gblock : Int) (file src : Flat)
    (env : GetEnv) (hpblock : 1 ≤ pblock) (hgblock : 1 ≤ gblock) (hpbuf : 2 ≤ pc.bufsize)
    (hgbuf : 2 ≤ gc.bufsize) (hsoff : gc.srcOffset ≤ src.size) (hplen : pc.len = -1 ∨ 1 ≤ pc.len)
    (hglen : gc.len = -1 ∨ 1 ≤ gc.len) (hsize : 0 ≤ file.size) :
    PutMoves pc pblock file ∧ GetMoves env gc gblock src ↔
      ¬LastBlockLost pc pblock file ∧
      ¬OnlyLastWriteFails env (blockPlan gc.bufsize gc.srcOffset gblock) (copyCount gc src) := by
  constructor
  · rintro ⟨hput, hget⟩
    constructor
    · intro hlost
      have hpos := blockPlan_fits pc.destOffset hpbuf hpblock
      refine not_putMoves hpblock hpbuf hsize ?_ hlost hput
      have := hpos.base_pos
      have := hpos.base_le
      have := hlost.1
      omega
    · intro hfail
      exact not_getMoves hgblock hgbuf hsoff hglen hfail hget
  · rintro ⟨hkept, hfine⟩
    constructor
    · intro penv dest mem
      exact (segmentPut_ends hpblock hpbuf hplen hsize dest mem hkept).settles id
    · intro out mem
      obtain ⟨r, hr, _, hgood⟩ := (segmentGet_ends hgblock hgbuf hsoff hglen mem).settles hfine
      exact ⟨r, hr, hgood⟩

/-- Three bytes each way through a buffer of four. -/
theorem fileCopy_exact_three :
    PutMoves ⟨0, 0, -1, 4, 0⟩ 1 ⟨3, fun x => .ofInt x⟩ ∧
      GetMoves ⟨fun _ => true, fun _ => none, fun _ => true⟩ ⟨0, 0, 3, 4, 0⟩ 1
        ⟨9, fun x => .ofInt x⟩ := by
  refine (fileCopy_exact_iff _ _ 1 1 ⟨3, fun x => .ofInt x⟩
    _ ⟨fun _ => true, fun _ => none, fun _ => true⟩ (by decide) (by decide)
    (by decide) (by decide) (by decide) (by decide) (by decide) (by decide)).mpr ⟨?_, ?_⟩
  · simp only [LastBlockLost]
    decide
  · rintro ⟨k, _, _, _, hfail⟩
    exact hfail rfl

/-- Three bytes of a file of three: the first block takes two of them and the third stays in
the buffer. A download whose only write fails waits for an operation it has freed. -/
theorem fileCopy_not_exact :
    ¬PutMoves ⟨0, 0, 3, 4, 0⟩ 1 ⟨3, fun x => .ofInt x⟩ ∧
      ¬GetMoves ⟨fun _ => true, fun _ => some (-1), fun _ => true⟩ ⟨0, 0, -1, 4, 0⟩ 1
        ⟨2, fun x => .ofInt x⟩ := by
  constructor
  · refine not_putMoves (by decide) (by decide) (by decide) (by decide) ?_
    simp only [LastBlockLost]
    decide
  · refine not_getMoves (by decide) (by decide) (by decide) (by decide) ⟨0, ?_, by simp, by simp, by simp⟩
    simp only [BlockPlan.IsLastTurn]
    decide

end LStore.Segment
