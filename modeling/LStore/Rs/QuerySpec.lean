import LStore.Rs.RequestSpec

/-!
# What a query selects

A query that is a postfix expression has a boolean meaning for each resource, and the stack
machine has its own reading of it: a disjunction is true, a value is compared on the length of
the key, and a test for any key starts at the key it is given. Each of these matters on one
side of a negation only, so that the queries that are read safely are found by their signs.
-/

namespace LStore.Rs

open List
open Base.CString

inductive Expr where
  | kv (q : QueryEle)
  | not (e : Expr)
  | and (a b : Expr)
  | or (a b : Expr)

/-- The query is the expression in postfix order. -/
inductive Expr.Written : Expr → List QueryEle → Prop
  | kv {q} (op : q.op = .kv) : Written (.kv q) [q]
  | not {e qs q} (inner : Written e qs) (op : q.op = .not) : Written (.not e) (qs ++ [q])
  | and {a b as bs q} (left : Written a as) (right : Written b bs) (op : q.op = .and) :
      Written (.and a b) (as ++ bs ++ [q])
  | or {a b as bs q} (left : Written a as) (right : Written b bs) (op : q.op = .or) :
      Written (.or a b) (as ++ bs ++ [q])

/-- A string matches what a test gives for it. -/
def KvOp.Matches (op : KvOp) (given : Option CStr) (s : CStr) : Prop :=
  match op with
  | .exact => s = given.getD []
  | .starts => given.getD [] <+: s
  | .any => True
  | .other => False

/-- The boolean meaning: a test holds if an attribute matches both its conditions. -/
def Expr.Means (rse : RidEntry) : Expr → Prop
  | .kv q => ∃ p ∈ rse.attr, q.keyOp.op.Matches q.key p.1 ∧ q.valOp.op.Matches q.val p.2
  | .not e => ¬ e.Means rse
  | .and a b => a.Means rse ∧ b.Means rse
  | .or a b => a.Means rse ∨ b.Means rse

/-- How the stack machine reads an expression. -/
def Expr.reads (rse : RidEntry) : Expr → Bool
  | .kv q => (scanFrom q rse.attr).any fun p => keyHit q p.1 && valHit q p.2
  | .not e => !e.reads rse
  | .and a b => a.reads rse && b.reads rse
  | .or _ _ => true

variable {rse : RidEntry} {n : Nat}

/-- The attributes are sorted, so that the iterator passes all smaller keys and no other. -/
theorem scanFrom_eq_filter (q : QueryEle) (rse : RidEntry) :
    scanFrom q rse.attr = rse.attr.filter fun p =>
      strncmp (q.key.getD []).length p.1 (q.key.getD []) ≠ .lt := by
  have hsorted := rse.sorted
  rw [scanFrom]
  generalize rse.attr = attr at hsorted
  induction attr with
  | nil => rfl
  | cons p ps ih =>
    obtain ⟨hbelow, hrest⟩ := pairwise_cons.mp hsorted
    rw [dropWhile_cons, filter_cons]
    by_cases hp : strncmp (q.key.getD []).length p.1 (q.key.getD []) = .lt
    · simpa [hp] using ih hrest
    · have hps : ∀ p' ∈ ps, strncmp (q.key.getD []).length p'.1 (q.key.getD []) ≠ .lt :=
        fun p' hp' hlt => hp (strncmp_lt_of_le (hbelow p' hp') hlt)
      have hself := filter_eq_self.mpr fun p' hp' => decide_eq_true (hps p' hp')
      rw [if_neg (by simp [hp]), if_pos (by simp [hp]), hself]

theorem keyHit_iff {q key} : keyHit q key = true ↔ q.keyOp.op.Matches q.key key := by
  rw [keyHit]
  cases q.keyOp.op with
  | exact => simp [KvOp.Matches, strcmp_eq_iff]
  | starts => simp [KvOp.Matches, strncmp_length_iff]
  | any => simp [KvOp.Matches]
  | other => simp [KvOp.Matches]

/-- The tests of a sign that are read safely. One that counts as it is may ask for the start of
a value that is not longer than the key; one that counts negated may do so for a start that is
not shorter, and gives no key when it takes any. A disjunction may count negated only. -/
def Expr.Faithful : Bool → Expr → Prop
  | true, .kv q => q.valOp.op ≠ .other ∧
      (q.valOp.op = .starts → (q.val.getD []).length ≤ (q.key.getD []).length)
  | false, .kv q => (q.keyOp.op = .any → q.key.getD [] = []) ∧
      (q.valOp.op = .starts → (q.key.getD []).length ≤ (q.val.getD []).length)
  | sign, .not e => e.Faithful !sign
  | sign, .and a b => a.Faithful sign ∧ b.Faithful sign
  | sign, .or _ _ => sign = false

theorem Expr.Faithful.matches_of_valHit {q val} (h : (Expr.kv q).Faithful true)
    (hval : valHit q val = true) : q.valOp.op.Matches q.val val := by
  rw [valHit] at hval
  cases hop : q.valOp.op with
  | exact => simpa [hop, strcmp_eq_iff, KvOp.Matches] using hval
  | starts =>
    have htake : val.take (q.key.getD []).length = q.val.getD [] := by
      simpa [hop, strncmp_eq_iff, take_of_length_le (h.2 hop)] using hval
    rw [KvOp.Matches, ← htake]
    exact take_prefix _ _
  | any => trivial
  | other => exact absurd hop h.1

theorem Expr.Faithful.valHit_of_matches {q val} (h : (Expr.kv q).Faithful false)
    (hval : q.valOp.op.Matches q.val val) : valHit q val = true := by
  rw [valHit]
  cases hop : q.valOp.op with
  | exact => simpa [hop, strcmp_eq_iff, KvOp.Matches] using hval
  | starts =>
    rw [hop] at hval
    obtain ⟨rest, rfl⟩ : q.val.getD [] <+: val := hval
    simp [strncmp_eq_iff, take_append_of_le_length (h.2 hop)]
  | any => rfl
  | other => rfl

/-- A matching key is in the part of the attributes that is searched. -/
theorem Expr.Faithful.searched {q key} (h : (Expr.kv q).Faithful false)
    (hkey : q.keyOp.op.Matches q.key key) :
    strncmp (q.key.getD []).length key (q.key.getD []) ≠ .lt := by
  have heq : strncmp (q.key.getD []).length key (q.key.getD []) = .eq := by
    rw [strncmp_length_iff]
    cases hop : q.keyOp.op with
    | exact =>
      rw [hop] at hkey
      exact (show key = q.key.getD [] from hkey) ▸ prefix_rfl
    | starts =>
      rw [hop] at hkey
      exact hkey
    | any => rw [h.1 hop]; exact nil_prefix
    | other =>
      rw [hop] at hkey
      exact hkey.elim
  rw [heq]
  decide

/-- What the machine accepts is so, for a query that is read safely as it is; and what is so is
accepted, for one that is read safely negated. -/
theorem Expr.Faithful.reads {e : Expr} :
    (e.Faithful true → e.reads rse = true → e.Means rse) ∧
      (e.Faithful false → e.Means rse → e.reads rse = true) := by
  induction e with
  | kv q =>
    simp only [Expr.reads, Expr.Means, scanFrom_eq_filter, any_eq_true, mem_filter,
      Bool.and_eq_true, keyHit_iff, decide_eq_true_eq]
    constructor
    · rintro h ⟨p, ⟨hp, _⟩, hkey, hval⟩
      exact ⟨p, hp, hkey, h.matches_of_valHit hval⟩
    · rintro h ⟨p, hp, hkey, hval⟩
      exact ⟨p, ⟨hp, h.searched hkey⟩, hkey, h.valHit_of_matches hval⟩
  | not e ih =>
    simp only [Expr.reads, Expr.Means, Expr.Faithful, Bool.not_true, Bool.not_false]
    constructor
    · intro h hnot hmeans
      simp [ih.2 h hmeans] at hnot
    · intro h hnot
      rw [Bool.not_eq_true']
      exact Bool.eq_false_iff.mpr fun hreads => hnot (ih.1 h hreads)
  | and a b iha ihb =>
    simp only [Expr.reads, Expr.Means, Expr.Faithful, Bool.and_eq_true]
    exact ⟨fun h => And.imp (iha.1 h.1) (ihb.1 h.2), fun h => And.imp (iha.2 h.1) (ihb.2 h.2)⟩
  | or a b => exact ⟨fun h => (by cases h), fun _ _ => rfl⟩

theorem runQuery_append {qs qs' m m'} (h : runQuery rse n qs m = some m') :
    runQuery rse n (qs ++ qs') m = runQuery rse n qs' m' := by
  induction qs generalizing m with
  | nil =>
    rw [runQuery, Option.some.injEq] at h
    rw [h, nil_append]
  | cons q qs ih =>
    rw [runQuery] at h
    rw [cons_append, runQuery]
    split at h
    · simp at h
    · exact ih h

/-- No flag of an element asks for a unique or a picked match. -/
def QueryEle.Plain (q : QueryEle) : Prop := q.isUnique = false ∧ q.isPickone = false

theorem QueryEle.Plain.firstFound {q} (h : q.Plain) (uniq : Option (Nat → KvqEle))
    (pickone : Option KvqEle) (ps : List (CStr × CStr)) :
    firstFound q n uniq pickone ps = some (ps.find? fun p => keyHit q p.1 && valHit q p.2) := by
  obtain ⟨hunique, hpickone⟩ := h
  simp only [QueryEle.isUnique, QueryEle.isPickone, Bool.or_eq_false_iff] at hunique hpickone
  have hpair (p : CStr × CStr) :
      pairFound q n uniq pickone p = some (keyHit q p.1 && valHit q p.2) := by
    cases hk : keyHit q p.1 <;> cases hv : valHit q p.2 <;>
      simp [pairFound, keyAllowed, valAllowed, hk, hv, hunique, hpickone]
  induction ps with
  | nil => rfl
  | cons p ps ih =>
    rw [Rs.firstFound, hpair]
    cases hp : (keyHit q p.1 && valHit q p.2)
    · simp [ih, hp]
    · simp [hp]

theorem QueryEle.Plain.rssTest {q} (h : q.Plain) (iUnique iPickone : Nat) (kvq : KvqTable) :
    rssTest q rse n iUnique iPickone kvq = some ((Expr.kv q).reads rse, kvq) := by
  have hstore (p : CStr × CStr) : storeUnique q n p = id := by
    funext row
    have hunique := h.1
    simp only [QueryEle.isUnique, Bool.or_eq_false_iff] at hunique
    simp [storeUnique, hunique]
  have hpick (p : CStr × CStr) : storePickone q p = id := by
    funext picked
    have hpickone := h.2
    simp only [QueryEle.isPickone, Bool.or_eq_false_iff] at hpickone
    simp [storePickone, hpickone]
  rw [Rs.rssTest, h.firstFound, Expr.reads, ← isSome_find?]
  cases (scanFrom q rse.attr).find? fun p => keyHit q p.1 && valHit q p.2 with
  | none => simp
  | some p => simp [hstore, hpick, h.1, h.2]

/-- The machine pushes its reading of an expression. -/
theorem Expr.Written.runQuery {e : Expr} {qs} (h : e.Written qs) (hplain : ∀ q ∈ qs, q.Plain)
    (stack : List Int) (kvq : KvqTable) (iUnique iPickone : Nat) :
    runQuery rse n qs ⟨stack, kvq, iUnique, iPickone⟩ =
      some ⟨boolState (e.reads rse) :: stack, kvq, iUnique, iPickone⟩ := by
  induction h generalizing stack with
  | @kv q op =>
    have hq := hplain q (by simp)
    simp [Rs.runQuery, runEle, op, hq.rssTest, hq.1, hq.2]
  | @not e qs q inner op ih =>
    rw [runQuery_append (ih (fun q hq => hplain q (by simp [hq])) stack)]
    cases hr : e.reads rse <;> simp [Rs.runQuery, runEle, op, Expr.reads, hr, boolState]
  | @and a b as bs q left right op iha ihb =>
    rw [append_assoc, runQuery_append (iha (fun q hq => hplain q (by simp [hq])) stack),
      runQuery_append (ihb (fun q hq => hplain q (by simp [hq])) _)]
    cases ha : a.reads rse <;> cases hb : b.reads rse <;>
      simp [Rs.runQuery, runEle, op, Expr.reads, ha, hb, boolState]
  | @or a b as bs q left right op iha ihb =>
    rw [append_assoc, runQuery_append (iha (fun q hq => hplain q (by simp [hq])) stack),
      runQuery_append (ihb (fun q hq => hplain q (by simp [hq])) _)]
    simp [Rs.runQuery, runEle, op, Expr.reads, boolState]

/-- A request without hints for a query without unique and picked matches. -/
structure Call.Unhinted (c : Call) (e : Expr) : Prop where
  written : e.Written c.query
  plain : ∀ q ∈ c.query, q.Plain
  hints : c.hints = none
  fixedSize : c.fixedSize = 0

variable {c : Call} {e : Expr}

theorem Call.Unhinted.evalRid (h : c.Unhinted e) (i : Nat) (g l : KvqTable) (rse : RidEntry) :
    evalRid c i g l rse = some (some (boolState (e.reads rse)), g, l) := by
  simp [Rs.evalRid, h.written.runQuery h.plain, Call.queryLocal, h.hints]

/-- A test without flags. -/
def plainTest (key : CStr) (keyOp : KvOp) (val : CStr) (valOp : KvOp) : QueryEle :=
  ⟨.kv, some key, ⟨keyOp, false, false⟩, some val, ⟨valOp, false, false⟩⟩

/-- An element that combines what is on the stack. -/
def plainOp (op : QueryOp) : QueryEle :=
  ⟨op, none, ⟨.any, false, false⟩, none, ⟨.any, false, false⟩⟩

end LStore.Rs
