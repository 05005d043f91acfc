import LStore.Base.CString
import Mathlib.Algebra.Order.Ring.Int
import Mathlib.Data.List.Induction

/-!
# Escaped texts

The routines of `src/toolbox/string_token.c` that know an escape character. A string is the
list of its characters before the terminating zero, which is none of them. The scanners pass
over an escape character together with the character behind it. They count in an `int`; the
counters here are unbounded, as for strings of less than 2 GiB.
-/

namespace LStore.Toolbox

open List Base.CString Option

variable {β : Type*} [DecidableEq β]

/-- The loop of the scanners: how far it goes before an unescaped character of `stop`. `skip`
is set behind an escape character, where the end of the string is passed over as well. -/
def escapeScan (stop : β → Bool) (esc : β) : Bool → List β → Nat
  | skip, [] => if skip then 1 else 0
  | true, _ :: rest => escapeScan stop esc false rest + 1
  | false, c :: rest => if stop c then 0 else escapeScan stop esc (decide (c = esc)) rest + 1

/-- The character is found in the delimiters by `index`. -/
def isDelim (delims : List β) (c : β) : Bool := decide (c ∈ delims)

/-- What a call of the tokenizer computes, as indexes into the string: the start of the token,
where the zero is written, and what `last` points to. The call is the last one without it. -/
structure Token where
  start : Nat
  stop : Nat
  last : Option Nat

/-- `tbx_stk_escape_string_token` on a string. -/
def escapeStringToken (delims : List β) (esc : β) (compress : Bool) (text : List β) : Token :=
  let rest := if compress then text.dropWhile (isDelim delims) else text
  let start := text.length - rest.length
  let n := start + escapeScan (isDelim delims) esc false rest
  ⟨start, n, if text.length ≤ n + 1 then none else some (n + 1)⟩

/-- `tbx_stk_escape_strchr`, as an index into the string. -/
def escapeStrchr (esc : β) (data : List β) (match' : β) : Nat :=
  escapeScan (fun c => decide (c = match')) esc false data

/-- `tbx_stk_escape_text`. -/
def escapeText (special : List β) (esc : β) (data : List β) : List β :=
  data.flatMap fun c => if c = esc ∨ c ∈ special then [esc, c] else [c]

/-- The loop of `tbx_stk_unescape_text`; `skip` is set behind an escape character. -/
def unescape (esc : β) : Bool → List β → List β
  | _, [] => []
  | true, c :: rest => c :: unescape esc false rest
  | false, c :: rest => if c = esc then unescape esc true rest else c :: unescape esc false rest

/-- `tbx_stk_unescape_text`. -/
def unescapeText (esc : β) (data : List β) : List β := unescape esc false data

/-- Calls of the tokenizer until it says that it is finished. -/
def splitTokens (delims : List β) (esc : β) : Nat → List β → Option (List (List β))
  | 0, _ => none
  | fuel + 1, text =>
    let t := escapeStringToken delims esc false text
    let token := (text.drop t.start).take (t.stop - t.start)
    match t.last with
    | none => some [token]
    | some last => (splitTokens delims esc fuel (text.drop last)).map (token :: ·)

/-- What a scanner passes over: characters that do not stop it, and pairs of the escape
character and any other. -/
inductive Passed (stop : β → Bool) (esc : β) : List β → Prop
  | nil : Passed stop esc []
  | plain {c : β} {rest : List β} (hstop : stop c = false) (hesc : c ≠ esc) :
      Passed stop esc rest → Passed stop esc (c :: rest)
  | pair {c : β} {rest : List β} (hesc : stop esc = false) :
      Passed stop esc rest → Passed stop esc (esc :: c :: rest)

variable {stop : β → Bool} {esc : β} {text rest : List β}

omit [DecidableEq β] in
theorem Passed.append (h : Passed stop esc text) (h' : Passed stop esc rest) :
    Passed stop esc (text ++ rest) := by
  induction h with
  | nil => exact h'
  | plain hstop hesc _ ih => exact .plain hstop hesc ih
  | pair hesc _ ih => exact .pair hesc ih

theorem Passed.scan (h : Passed stop esc text) (rest : List β) :
    escapeScan stop esc false (text ++ rest) = text.length + escapeScan stop esc false rest := by
  induction h with
  | nil => simp
  | plain hstop hesc _ ih =>
    simp [escapeScan, hstop, hesc, ih]
    omega
  | pair hesc _ ih =>
    simp [escapeScan, hesc, ih]
    omega

/-- The scan of a text ends with a lone escape character. -/
def OpenEnd (stop : β → Bool) (esc : β) (text : List β) : Prop :=
  stop esc = false ∧ ∃ body, Passed stop esc body ∧ text = body ++ [esc]

/-- A scan either passes over some text and stops in front of the rest, or comes to a lone escape
character at the end. -/
theorem scan_cases (stop : β → Bool) (esc : β) (text : List β) :
    escapeScan stop esc false text ≤ text.length ∨ OpenEnd stop esc text := by
  induction text using List.twoStepInduction with
  | nil => exact .inl (Nat.zero_le _)
  | singleton c =>
    by_cases hstop : stop c
    · exact .inl (by simp [escapeScan, hstop])
    · by_cases hesc : c = esc
      · subst hesc
        exact .inr ⟨by simpa using hstop, [], .nil, rfl⟩
      · exact .inl (by simp [escapeScan, hstop, hesc])
  | cons_cons c d rest ih ih' =>
    by_cases hstop : stop c
    · exact .inl (by simp [escapeScan, hstop])
    have hpass : stop c = false := by simpa using hstop
    by_cases hesc : c = esc
    · subst hesc
      -- the pair is passed over, and the scan goes on behind it
      rcases ih with hle | ⟨_, body, hbody, rfl⟩
      · exact .inl (by simpa [escapeScan, hpass] using hle)
      · exact .inr ⟨hpass, c :: d :: body, .pair hpass hbody, rfl⟩
    · rcases ih' d with hle | ⟨hs, body, hbody, heq⟩
      · rw [escapeScan, if_neg hstop, decide_eq_false hesc]
        exact .inl (Nat.succ_le_succ hle)
      · exact .inr ⟨hs, c :: body, .plain hpass hesc hbody, congrArg (c :: ·) heq⟩

theorem scan_le_iff (stop : β → Bool) (esc : β) (text : List β) :
    escapeScan stop esc false text ≤ text.length ↔ ¬OpenEnd stop esc text := by
  refine ⟨?_, fun h => (scan_cases stop esc text).resolve_right h⟩
  rintro hle ⟨hesc, body, hbody, rfl⟩
  rw [hbody.scan] at hle
  simp [escapeScan, hesc] at hle

/-- The indexes that a call of the tokenizer computes lie in the string or at its end. -/
def Token.Within (t : Token) (text : List β) : Prop :=
  t.start ≤ text.length ∧ t.stop ≤ text.length ∧ ∀ last ∈ t.last, last ≤ text.length

/-- The scanners stay in a string exactly when it does not end with a lone escape character: when
what is behind the skipped delimiters, or before the character that is looked for, is not
followed by one at the end. -/
theorem escape_scanners_within_iff (delims : List β) (esc : β) (compress : Bool) (match' : β)
    (text : List β) :
    ((escapeStringToken delims esc compress text).Within text ∧
        escapeStrchr esc text match' ≤ text.length) ↔
      ¬OpenEnd (isDelim delims) esc
          (if compress then text.dropWhile (isDelim delims) else text) ∧
        ¬OpenEnd (fun c => decide (c = match')) esc text := by
  rw [← scan_le_iff, ← scan_le_iff]
  refine and_congr_left fun _ => ?_
  have hrest : (if compress then text.dropWhile (isDelim delims) else text).length ≤
      text.length := by
    split
    · exact length_dropWhile_le _ _
    · exact le_rfl
  simp only [Token.Within, escapeStringToken]
  constructor
  · rintro ⟨-, hstop, -⟩
    omega
  · intro hle
    refine ⟨by omega, by omega, fun last hlast => ?_⟩
    obtain ⟨hlt, hlast⟩ := ite_none_left_eq_some.mp hlast
    have heq := some.inj hlast
    omega

/-- A lone escape character: the zero is written behind the terminator. -/
theorem escape_scanners_lone :
    (escapeStringToken [','] '\\' false ['\\']).stop = 2 ∧ escapeStrchr '\\' ['\\'] ',' = 2 ∧
      ¬(escapeStringToken [','] '\\' false ['\\']).Within ['\\'] :=
  ⟨rfl, rfl, fun h => absurd h.2.1 (by decide)⟩

variable {special : List β} {d : β} {data : List β}

theorem passed_escapeText (hd : d ≠ esc) (hs : d ∈ special) (data : List β) :
    Passed (isDelim [d]) esc (escapeText special esc data) := by
  have hesc : isDelim [d] esc = false := by simpa [isDelim] using hd.symm
  induction data with
  | nil => exact .nil
  | cons c data ih =>
    rw [escapeText, flatMap_cons]
    refine Passed.append ?_ ih
    split_ifs with hc
    · exact .pair hesc .nil
    · rw [not_or] at hc
      have hcd : c ≠ d := fun h => hc.2 (h ▸ hs)
      exact .plain (by simpa [isDelim] using hcd) hc.1 .nil

theorem unescape_escapeText (special : List β) (esc : β) (data : List β) :
    unescapeText esc (escapeText special esc data) = data := by
  rw [unescapeText]
  induction data with
  | nil => rfl
  | cons c data ih =>
    rw [escapeText, flatMap_cons]
    rw [escapeText] at ih
    split_ifs with hc
    · simp [unescape, ih]
    · rw [not_or] at hc
      simp [unescape, hc.1, ih]

/-- The tokenizer on the last text. -/
theorem escapeStringToken_last (h : Passed (isDelim [d]) esc text) :
    escapeStringToken [d] esc false text = ⟨0, text.length, none⟩ := by
  have hscan := h.scan []
  rw [append_nil] at hscan
  simp [escapeStringToken, hscan, escapeScan]

/-- The tokenizer on a text that is followed by others. -/
theorem escapeStringToken_next (h : Passed (isDelim [d]) esc text) (hrest : rest ≠ []) :
    escapeStringToken [d] esc false (text ++ d :: rest) =
      ⟨0, text.length, some (text.length + 1)⟩ := by
  have hscan := h.scan (d :: rest)
  have hdelim : isDelim [d] d = true := by simp [isDelim]
  simp only [escapeScan, hdelim, if_true, Nat.add_zero] at hscan
  simp only [escapeStringToken, Bool.false_eq_true, if_false, hscan, Nat.sub_self, Nat.zero_add]
  rw [if_neg (by simp; omega)]

/-- Texts that are escaped, joined by a delimiter, split and unescaped come back. -/
theorem split_escaped (special : List β) (esc d : β) (hd : d ≠ esc) (hs : d ∈ special)
    (texts : List (List β)) (hne : texts ≠ []) (hlast : texts.getLast hne ≠ []) (fuel : Nat)
    (hfuel : texts.length ≤ fuel) :
    (splitTokens [d] esc fuel (joined d (texts.map (escapeText special esc)))).map
      (·.map (unescapeText esc)) = some texts := by
  induction texts generalizing fuel with
  | nil => exact absurd rfl hne
  | cons t texts ih =>
    rcases fuel with _ | fuel
    · simp at hfuel
    have hpassed := passed_escapeText hd hs t
    cases texts with
    | nil =>
      simp [joined, splitTokens, escapeStringToken_last hpassed, unescape_escapeText]
    | cons u texts =>
      have hrec := ih (by simp) (by simpa using hlast) fuel (by simp at hfuel ⊢; omega)
      have hrest : joined d ((u :: texts).map (escapeText special esc)) ≠ [] := by
        cases texts with
        | nil =>
          cases u with
          | nil => simp at hlast
          | cons c u =>
            simp only [map_cons, map_nil, joined, escapeText, flatMap_cons]
            split <;> simp
        | cons v texts => simp [joined]
      have hstep : joined d ((t :: u :: texts).map (escapeText special esc)) =
          escapeText special esc t ++ d :: joined d ((u :: texts).map (escapeText special esc)) :=
        rfl
      obtain ⟨tokens, htokens, hmap⟩ := map_eq_some_iff.mp hrec
      rw [hstep]
      generalize joined d ((u :: texts).map (escapeText special esc)) = rest at hrest htokens ⊢
      rw [splitTokens, escapeStringToken_next hpassed hrest]
      simp [htokens, hmap, unescape_escapeText]

theorem split_escaped_two :
    (splitTokens [','] '\\' 3 (joined ',' ([['a', ',', '\\'], [], ['b']].map
      (escapeText [',', ';'] '\\')))).map (·.map (unescapeText '\\')) =
      some [['a', ',', '\\'], [], ['b']] :=
  split_escaped [',', ';'] '\\' ',' (by decide) (by decide) [['a', ',', '\\'], [], ['b']]
    (by decide) (by decide) 3 (by decide)

/-- `%lld` of `sprintf`. -/
def printInt (n : Int) : List Char :=
  (if n < 0 then ['-'] else []) ++ Nat.toDigits 10 n.natAbs

/-- `%lld` of `sscanf` on a text without blanks in front; without digits nothing is stored. -/
def scanInt (text : List Char) : Option Int :=
  let (sign, digits) : Int × List Char :=
    match text with
    | '-' :: rest => (-1, rest)
    | '+' :: rest => (1, rest)
    | rest => (1, rest)
  if digits.head?.any Char.isDigit then some (sign * atoi digits) else none

/-- The characters of `unit`; the terminating zeros end the text. -/
def unitChar : Nat → List Char
  | 1 => ['K']
  | 2 => ['M']
  | 3 => ['G']
  | 4 => ['T']
  | 5 => ['P']
  | 6 => ['E']
  | _ => []

/-- The loop that divides by the base, for at most `left` more units. -/
def scaleDown (base : Nat) : Nat → Int → Nat × Int
  | 0, n => (0, n)
  | left + 1, n =>
    if n.natAbs % base ≠ 0 then (0, n)
    else
      let r := scaleDown base left (n.tdiv base)
      (r.1 + 1, r.2)

/-- `tbx_stk_pretty_print_int_with_scale`. -/
def prettyPrintIntWithScale (value : Int) : List Char :=
  let base := if value.tmod 1000 = 0 then 1000 else if value.tmod 1024 = 0 then 1024 else 1
  if base = 1 then printInt value
  else
    let r := scaleDown base 7 value
    -- behind a zero character the rest is not part of the text
    if unitChar r.1 = [] then printInt r.2
    else printInt r.2 ++ unitChar r.1 ++ (if base = 1024 then ['i'] else [' '])

/-- `split_token_into_number_and_scale`: the number portion and the scale. -/
def splitTokenIntoNumberAndScale (token : List Char) : List Char × Int :=
  let binary := token.getLast? = some 'I' ∨ token.getLast? = some 'i'
  let base : Int := if binary then 1024 else 1000
  let rest := if binary then token.dropLast else token
  match rest.getLast? with
  | none => (rest, if binary then base else 1)
  | some c =>
    if c = 'b' then (rest.dropLast, 1)
    else if c = 'K' ∨ c = 'k' then (rest.dropLast, base)
    else if c = 'M' ∨ c = 'm' then (rest.dropLast, base * base)
    else if c = 'G' ∨ c = 'g' then (rest.dropLast, base * base * base)
    else if c = 'T' ∨ c = 't' then (rest.dropLast, base * base * base * base)
    else (rest, 1)

/-- `tbx_stk_string_get_integer`. -/
def stringGetInteger (value : List Char) : Option Int :=
  let r := splitTokenIntoNumberAndScale value
  (scanInt r.1).map (r.2 * ·)

/-- A printed number is read up to the first character that is not a digit. -/
theorem scanInt_printInt (n : Int) {rest} (hrest : rest.head?.all (!·.isDigit)) :
    scanInt (printInt n ++ rest) = some n := by
  have hdigits : ∀ c ∈ Nat.toDigits 10 n.natAbs, c.isDigit = true := fun c hc =>
    Nat.isDigit_of_mem_toDigits (by decide) (by decide) hc
  have hatoi : atoi (Nat.toDigits 10 n.natAbs ++ rest) = n.natAbs := by
    have htake : rest.takeWhile Char.isDigit = [] := by
      cases rest with
      | nil => rfl
      | cons c rest => simpa using hrest
    rw [atoi, takeWhile_append_of_pos hdigits, htake, append_nil, Nat.ofDigitChars_ten_toDigits]
  obtain ⟨c, cs, hcs⟩ := exists_cons_of_ne_nil (Nat.toDigits_ne_nil (n := n.natAbs) (b := 10))
  have hc : c.isDigit = true := hdigits c (by simp [hcs])
  rw [hcs] at hatoi
  rw [printInt, hcs]
  split
  · simp only [scanInt, cons_append, nil_append] at hatoi ⊢
    rw [hatoi, if_pos (by simpa using hc)]
    congr 1
    omega
  · simp only [scanInt, nil_append, cons_append] at hatoi ⊢
    split
    · simp_all
    · simp_all
    · rw [hatoi, if_pos (by simpa using hc)]
      congr 1
      omega

/-- The loop takes out the powers of the base. -/
theorem scaleDown_spec (base left : Nat) (n : Int) :
    n = (scaleDown base left n).2 * base ^ (scaleDown base left n).1 ∧
      (scaleDown base left n).1 ≤ left ∧
      ((scaleDown base left n).1 < left → ¬(base : Int) ∣ (scaleDown base left n).2) := by
  induction left generalizing n with
  | zero => simp [scaleDown]
  | succ left ih =>
    rw [scaleDown]
    split_ifs with hmod
    · refine ⟨by simp, Nat.zero_le _, fun _ hdvd => hmod ?_⟩
      exact Nat.mod_eq_zero_of_dvd (Int.ofNat_dvd_left.mp hdvd)
    · have hdvd : (base : Int) ∣ n :=
        Int.ofNat_dvd_left.mpr (Nat.dvd_of_mod_eq_zero (not_not.mp hmod))
      obtain ⟨heq, hle, hmax⟩ := ih (n.tdiv base)
      refine ⟨?_, by simp only; omega, fun hlt => hmax (by simp only at hlt; omega)⟩
      rw [pow_succ, ← mul_assoc, ← heq, Int.tdiv_mul_cancel hdvd]

/-- The powers of the base in a number are those that the loop takes out. -/
theorem pow_dvd_iff_of_scaled {base} (k : Nat) (hbase : 0 < base) {v n i} (hv : v = n * base ^ i)
    (hn : ¬(base : Int) ∣ n) : (base : Int) ^ k ∣ v ↔ k ≤ i := by
  constructor
  · intro hdvd
    by_contra hlt
    apply hn
    obtain ⟨j, rfl⟩ : ∃ j, k = i + (j + 1) := ⟨k - i - 1, by omega⟩
    rw [hv, pow_add, mul_comm n] at hdvd
    have hpos : (base : Int) ^ i ≠ 0 := pow_ne_zero i (by omega)
    exact (dvd_pow_self _ j.succ_ne_zero).trans (Int.dvd_of_mul_dvd_mul_left hpos hdvd)
  · intro hle
    rw [hv]
    exact (pow_dvd_pow _ hle).mul_left n

/-- A printed number has no blanks and ends with a digit. -/
theorem printInt_digits (n : Int) : ' ' ∉ printInt n ∧
    ∃ c, (printInt n).getLast? = some c ∧ c.isDigit = true := by
  have hdigits : ∀ c ∈ Nat.toDigits 10 n.natAbs, c.isDigit = true := fun c hc =>
    Nat.isDigit_of_mem_toDigits (by decide) (by decide) hc
  have hne := Nat.toDigits_ne_nil (n := n.natAbs) (b := 10)
  constructor
  · rw [printInt, mem_append, not_or]
    refine ⟨by split <;> simp, fun hmem => ?_⟩
    exact absurd (hdigits ' ' hmem) (by decide)
  · refine ⟨(Nat.toDigits 10 n.natAbs).getLast hne, ?_, hdigits _ (getLast_mem hne)⟩
    rw [printInt, getLast?_append_of_ne_nil _ hne, getLast?_eq_some_getLast hne]

/-- A number portion is read up to a unit that is left on it. -/
theorem stringGetInteger_of_split {text n scale} (rest : List Char)
    (hrest : rest.head?.all (!·.isDigit))
    (hsplit : splitTokenIntoNumberAndScale text = (printInt n ++ rest, scale)) :
    stringGetInteger text = some (scale * n) := by
  rw [stringGetInteger, hsplit]
  simp [scanInt_printInt n hrest]

/-- The base of the units, and the character that is printed behind a unit. -/
def unitBase (binary : Bool) : Nat := if binary then 1024 else 1000

def unitMark (binary : Bool) : Char := if binary then 'i' else ' '

/-- The INI tokenizer drops the blank, and the reader knows the first four units. -/
theorem split_unit (n : Int) (binary : Bool) {i} (hi : 1 ≤ i) (hi' : i ≤ 6) :
    ∃ c, unitChar i = [c] ∧ c.isDigit = false ∧
      splitTokenIntoNumberAndScale
          (stringToken ' ' (printInt n ++ [c] ++ [unitMark binary])).1 =
        if i ≤ 4 then (printInt n ++ [], (unitBase binary : Int) ^ i)
        else (printInt n ++ [c], 1) := by
  have hblank := (printInt_digits n).1
  obtain rfl | rfl | rfl | rfl | rfl | rfl :
    i = 1 ∨ i = 2 ∨ i = 3 ∨ i = 4 ∨ i = 5 ∨ i = 6 := by omega
  all_goals
    refine ⟨_, rfl, by decide, ?_⟩
    cases binary with
    | false =>
      rw [unitMark, if_neg (by decide), stringToken_sep (by simp) (by simpa using hblank)]
      simp [splitTokenIntoNumberAndScale, unitBase]
    | true =>
      rw [unitMark, if_pos rfl, stringToken_last (by simp) (by simpa using hblank)]
      simp [splitTokenIntoNumberAndScale, unitBase]

/-- A value without a unit. -/
theorem stringGetInteger_plain (n : Int) :
    stringGetInteger (stringToken ' ' (printInt n)).1 = some n := by
  obtain ⟨hblank, c, hlast, hc⟩ := printInt_digits n
  have hother : ∀ x : Char, x.isDigit = false → c ≠ x := by
    rintro x hx rfl
    rw [hc] at hx
    cases hx
  rw [stringToken_last (fun hnil => by simp [hnil] at hlast) hblank, ← one_mul n]
  refine stringGetInteger_of_split [] rfl ?_
  simp [splitTokenIntoNumberAndScale, hlast, hother]

/-- A value that the base divides is printed with one of the six units. -/
theorem scaled_unit (base : Nat) (htop : 2 ^ 63 < base ^ 7) {value} (hzero : value ≠ 0)
    (hlo : -2 ^ 63 ≤ value) (hhi : value < 2 ^ 63) :
    (scaleDown base 7 value).2 ≠ 0 ∧ (scaleDown base 7 value).1 ≤ 6 := by
  obtain ⟨hvalue, hle, -⟩ := scaleDown_spec base 7 value
  generalize (scaleDown base 7 value).1 = i at hvalue hle ⊢
  generalize (scaleDown base 7 value).2 = n at hvalue ⊢
  have hn : n ≠ 0 := by
    rintro rfl
    simp [hvalue] at hzero
  have hne : i ≠ 7 := by
    rintro rfl
    have habs := congrArg Int.natAbs hvalue
    rw [Int.natAbs_mul, Int.natAbs_pow, Int.natAbs_natCast] at habs
    have hge : base ^ 7 ≤ n.natAbs * base ^ 7 :=
      Nat.le_mul_of_pos_left _ (Int.natAbs_pos.mpr hn)
    omega
  exact ⟨hn, by omega⟩

/-- With a unit the value is read back exactly when the unit is one of the first four. -/
theorem unit_read_back (binary : Bool) {value} (hzero : value ≠ 0) (hlo : -2 ^ 63 ≤ value)
    (hhi : value < 2 ^ 63) (hdvd : (unitBase binary : Int) ∣ value) :
    let r := scaleDown (unitBase binary) 7 value
    unitChar r.1 ≠ [] ∧
      (stringGetInteger (stringToken ' ' (printInt r.2 ++ unitChar r.1 ++ [unitMark binary])).1 =
        some value ↔ ¬(unitBase binary : Int) ^ 5 ∣ value) := by
  intro r
  have hbase : 1 < unitBase binary ∧ 2 ^ 63 < unitBase binary ^ 7 := by cases binary <;> decide
  obtain ⟨hn, hsix⟩ := scaled_unit _ hbase.2 hzero hlo hhi
  obtain ⟨hvalue, -, hmax⟩ := scaleDown_spec (unitBase binary) 7 value
  have hpow := fun k => pow_dvd_iff_of_scaled k (by omega) hvalue (hmax (by omega))
  have hone := (hpow 1).mp (by rwa [pow_one])
  obtain ⟨c, hunit, hdigit, hsplit⟩ := split_unit r.2 binary hone hsix
  refine ⟨by rw [hunit]; simp, ?_⟩
  rw [hpow 5, hunit]
  split_ifs at hsplit with hfour
  · rw [stringGetInteger_of_split [] rfl hsplit]
    exact iff_of_true (congrArg some (by rw [mul_comm, ← hvalue])) (by omega)
  · rw [stringGetInteger_of_split [c] (by simpa using hdigit) hsplit, one_mul]
    refine iff_of_false (fun heq => ?_) (by omega)
    have heq : r.2 * 1 = r.2 * (unitBase binary : Int) ^ r.1 := by
      rw [mul_one, ← hvalue]
      exact some.inj heq
    have hbig : (1 : Int) < (unitBase binary : Int) ^ r.1 :=
      one_lt_pow₀ (by omega) (Nat.one_le_iff_ne_zero.mp hone)
    exact absurd (Int.eq_of_mul_eq_mul_left hn heq) (by omega)

/-- A scaled integer is read back as the same value exactly when the units P and E do not occur. -/
theorem scaled_read_back_iff (value : Int) (hlo : -2 ^ 63 ≤ value) (hhi : value < 2 ^ 63) :
    stringGetInteger (stringToken ' ' (prettyPrintIntWithScale value)).1 = some value ↔
      value = 0 ∨ if (1000 : Int) ∣ value then ¬(1000 : Int) ^ 5 ∣ value
        else ¬(1024 : Int) ^ 5 ∣ value := by
  by_cases hzero : value = 0
  · subst hzero
    exact iff_of_true (by decide) (.inl rfl)
  rw [or_iff_right hzero, prettyPrintIntWithScale]
  by_cases hdecimal : (1000 : Int) ∣ value
  · have ⟨(hunit : unitChar (scaleDown 1000 7 value).1 ≠ []), hread⟩ :=
      unit_read_back false hzero hlo hhi hdecimal
    simp only [Int.tmod_eq_zero_of_dvd hdecimal, if_true]
    rw [if_neg (by decide), if_neg hunit, if_neg (by decide), if_pos hdecimal]
    exact hread
  · have hmod : value.tmod 1000 ≠ 0 := fun h => hdecimal (Int.dvd_of_tmod_eq_zero h)
    rw [if_neg hmod, if_neg hdecimal]
    by_cases hbinary : (1024 : Int) ∣ value
    · have ⟨(hunit : unitChar (scaleDown 1024 7 value).1 ≠ []), hread⟩ :=
        unit_read_back true hzero hlo hhi hbinary
      simp only [Int.tmod_eq_zero_of_dvd hbinary, if_true]
      rw [if_neg (by decide), if_neg hunit]
      exact hread
    · have hmod : value.tmod 1024 ≠ 0 := fun h => hbinary (Int.dvd_of_tmod_eq_zero h)
      rw [if_neg hmod]
      refine iff_of_true (stringGetInteger_plain value) fun h => hbinary ?_
      exact (dvd_pow_self _ (by decide)).trans h

theorem scaled_read_back_negative :
    stringGetInteger (stringToken ' ' (prettyPrintIntWithScale (-3072))).1 = some (-3072) :=
  (scaled_read_back_iff (-3072) (by decide) (by decide)).mpr (.inr (by decide))

theorem scaled_read_back_peta :
    stringGetInteger (stringToken ' ' (prettyPrintIntWithScale (1000 ^ 5))).1 = some 1 := by
  decide

end LStore.Toolbox
