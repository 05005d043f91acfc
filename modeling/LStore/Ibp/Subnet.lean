import LStore.Base.CString
import Mathlib.Data.BitVec
import Mathlib.Data.List.GetD

/-!
# Address filters of the depot

`new_subnet_list` reads an access list out of a text: `open`, `local`, or entries
`a.b.c.d/bits`. An address is a 16-byte image of which an IPv4 address uses the first four;
`apply_subnet_mask` blanks what follows the prefix, and `subnet_list_validate` compares the
blanked images. Every write into a buffer of fixed size is recorded with the buffer's size.
-/

namespace LStore.Ibp

open Base.CString List

variable {bits : Nat}

/-- The 16 bytes of an address. -/
abbrev Image := List (BitVec 8)

def bitmask : List (BitVec 8) := [128, 192, 224, 240, 248, 252, 254, 255]

/-- The loop of `ipdecstr2address` over the last `k` bytes: where the text has no more numbers
the token is empty and never NULL, so that the loop ends with the image. -/
def octetLoop : Nat → List Char → Image
  | 0, _ => []
  | k + 1, text =>
    let token := stringToken '.' text
    BitVec.ofNat 8 (atoi token.1) :: octetLoop k token.2

def ipdecstr2address (src : List Char) : Image :=
  octetLoop 16 src

def applySubnetMask (bits : Nat) (address : Image) : Image :=
  address.mapIdx fun j byte =>
    if j < bits / 8 then byte
    else if j = bits / 8 then byte &&& bitmask.getD (bits % 8) 0
    else 0

/-- `subnet_t`. -/
structure Subnet where
  bits : Nat
  mask : Image

inductive SubnetMode
  | openList
  | localOnly
  | list
  deriving DecidableEq

/-- `subnet_list_t`. -/
structure SubnetList where
  mode : SubnetMode
  range : List Subnet

/-- A write at `index` of a buffer with `size` places. -/
structure BufferWrite where
  index : Nat
  size : Nat

def BufferWrite.Inside (w : BufferWrite) : Prop := w.index < w.size

/-- The tokens `new_subnet_list` stores in `list` before the empty one. -/
def listLoop : Nat → List Char → List (List Char)
  | 0, _ => []
  | fuel + 1, text =>
    let token := stringToken ';' text
    if token.1 = [] then [] else token.1 :: listLoop fuel token.2

/-- The body of the loop of `new_subnet_list` over the entries. -/
def newSubnet (text : List Char) : Subnet :=
  -- `strncpy` into `acl_text`, whose last byte is then set to zero
  let aclText := text.take 127
  let mask := stringToken '/' aclText
  let bits := atoi (stringToken '/' mask.2).1
  ⟨bits, applySubnetMask bits (ipdecstr2address mask.1)⟩

/-- What the body writes: `range[i]`, `acl_text`, `dest` and `masked_address`. -/
def subnetWrites (n i bits : Nat) : List BufferWrite :=
  ⟨i, n⟩ :: (List.range 128).map (⟨·, 128⟩) ++ (List.range 16).map (⟨·, 16⟩) ++
    (List.range' (bits / 8 + 1) (15 - bits / 8)).map (⟨·, 16⟩) ++ [⟨bits / 8, 16⟩]

def newSubnetList (listString : List Char) : SubnetList × List BufferWrite :=
  let list := listLoop (listString.length + 1) listString
  -- the empty token is stored as well
  let writes := (List.range (list.length + 1)).map (⟨·, 100⟩)
  if list.headD [] = ['o', 'p', 'e', 'n'] then (⟨.openList, []⟩, writes)
  else if list.headD [] = ['l', 'o', 'c', 'a', 'l'] then (⟨.localOnly, []⟩, writes)
  else
    let range := list.map newSubnet
    (⟨.list, range⟩,
      writes ++ (range.mapIdx fun i s => subnetWrites range.length i s.bits).flatten)

def subnetValidate (sn : Subnet) (address : Image) : Nat :=
  if applySubnetMask sn.bits address = sn.mask then 1 else 0

def subnetListValidate (localAddress : Image) (sl : SubnetList) (address : List Char) : Nat :=
  match sl.mode with
  | .openList => 1
  | .list | .localOnly =>
    let image := ipdecstr2address address
    if sl.range.any fun s => subnetValidate s image = 1 then 1
    else if localAddress = image then 1
    else 0

/-- A decimal number of at most `width` digits that is at most `bound`. -/
structure Numeral (width bound : Nat) where
  digits : List Char
  nonempty : digits ≠ []
  short : digits.length ≤ width
  isDigit : digits.all Char.isDigit = true
  le : Nat.ofDigitChars 10 digits 0 ≤ bound

def Numeral.value {width bound : Nat} (n : Numeral width bound) : Nat :=
  Nat.ofDigitChars 10 n.digits 0

/-- An IPv4 address in dotted form. -/
structure Dotted where
  a : Numeral 3 255
  b : Numeral 3 255
  c : Numeral 3 255
  d : Numeral 3 255

def Dotted.text (x : Dotted) : List Char :=
  joined '.' [x.a.digits, x.b.digits, x.c.digits, x.d.digits]

def Dotted.image (x : Dotted) : Image :=
  [BitVec.ofNat 8 x.a.value, BitVec.ofNat 8 x.b.value, BitVec.ofNat 8 x.c.value,
    BitVec.ofNat 8 x.d.value] ++ List.replicate 12 0

/-- An entry `a.b.c.d/bits`. -/
structure AclEntry where
  address : Dotted
  bits : Numeral 2 32

def AclEntry.text (e : AclEntry) : List Char :=
  joined '/' [e.address.text, e.bits.digits]

inductive AccessList
  | openList
  | localOnly
  | list (entries : List AclEntry)

def AccessList.text : AccessList → List Char
  | .openList => ['o', 'p', 'e', 'n']
  | .localOnly => ['l', 'o', 'c', 'a', 'l']
  | .list entries => joined ';' (entries.map AclEntry.text)

def AccessList.entries : AccessList → List AclEntry
  | .list entries => entries
  | _ => []

/-- Bit `k` of an image, the first byte's highest bit first. -/
def bitAt (image : Image) (k : Nat) : Bool :=
  (image.getD (k / 8) 0).getMsbD (k % 8)

/-- Two images have the same first `bits` bits. -/
def Agree (bits : Nat) (x y : Image) : Prop := ∀ k < bits, bitAt x k = bitAt y k

instance (bits : Nat) (x y : Image) : Decidable (Agree bits x y) :=
  inferInstanceAs (Decidable (∀ k < bits, bitAt x k = bitAt y k))

/-- The list admits an address exactly when it is open, the address is the local one, or the
address lies in the network of an entry; reading the list stays inside the buffers. -/
structure Filtered (acl : AccessList) (localAddress : Image) (address : Dotted) : Prop where
  admits : subnetListValidate localAddress (newSubnetList acl.text).1 address.text = 1 ↔
    acl = .openList ∨ localAddress = address.image ∨
      ∃ e ∈ acl.entries, Agree e.bits.value address.image e.address.image
  inside : ∀ w ∈ (newSubnetList acl.text).2, w.Inside

variable {width bound : Nat}

section

variable (n : Numeral width bound)
include n

@[simp] theorem Numeral.atoi_digits : atoi n.digits = n.value := by
  rw [atoi, takeWhile_eq_self_iff.mpr (all_eq_true.mp n.isDigit), Numeral.value]

theorem Numeral.not_mem_digits {c} (hc : c.isDigit = false) : c ∉ n.digits := by
  intro h
  rw [all_eq_true.mp n.isDigit c h] at hc
  exact Bool.noConfusion hc

theorem octetLoop_numeral (tokens : List (List Char)) (k : Nat) :
    octetLoop (k + 1) (joined '.' (n.digits :: tokens)) =
      BitVec.ofNat 8 n.value :: octetLoop k (joined '.' tokens) := by
  rw [octetLoop, stringToken_joined n.nonempty (n.not_mem_digits (by decide))]
  simp [Numeral.atoi_digits]

end

theorem octetLoop_nil (k : Nat) : octetLoop k [] = List.replicate k 0 := by
  induction k with
  | zero => rfl
  | succ k ih =>
    rw [octetLoop, stringToken_nil, replicate_succ, ← ih]
    rfl

/-- The image of a dotted address is read off its text. -/
theorem ipdecstr2address_text (x : Dotted) : ipdecstr2address x.text = x.image := by
  rw [ipdecstr2address, Dotted.text, octetLoop_numeral, octetLoop_numeral, octetLoop_numeral,
    octetLoop_numeral, joined, octetLoop_nil]
  rfl

theorem Dotted.mem_text (x : Dotted) {c} (hc : c ∈ x.text) : c = '.' ∨ c.isDigit = true := by
  refine (mem_joined hc).imp_right fun ⟨t, ht, hct⟩ => ?_
  simp only [mem_cons, not_mem_nil, or_false] at ht
  rcases ht with rfl | rfl | rfl | rfl
  · exact all_eq_true.mp x.a.isDigit c hct
  · exact all_eq_true.mp x.b.isDigit c hct
  · exact all_eq_true.mp x.c.isDigit c hct
  · exact all_eq_true.mp x.d.isDigit c hct

theorem Dotted.text_ne_nil (x : Dotted) : x.text ≠ [] := by
  simp [Dotted.text, joined]

theorem Dotted.length_text (x : Dotted) : x.text.length ≤ 15 := by
  have ha := x.a.short
  have hb := x.b.short
  have hc := x.c.short
  have hd := x.d.short
  simp only [Dotted.text, joined, length_append, length_cons]
  omega

section

variable (e : AclEntry)
include e

theorem AclEntry.text_eq : e.text = e.address.text ++ '/' :: e.bits.digits := rfl

theorem AclEntry.text_ne_nil : e.text ≠ [] := by
  simp [AclEntry.text_eq]

theorem AclEntry.length_text : e.text.length ≤ 18 := by
  have ha := e.address.length_text
  have hb := e.bits.short
  rw [AclEntry.text_eq, length_append, length_cons]
  omega

theorem AclEntry.semicolon_not_mem : ';' ∉ e.text := by
  intro h
  rw [AclEntry.text_eq, mem_append, mem_cons] at h
  rcases h with h | h | h
  · exact absurd (e.address.mem_text h) (by decide)
  · exact absurd h (by decide)
  · exact e.bits.not_mem_digits (by decide) h

/-- An entry's text gives its prefix length and its masked network. -/
theorem newSubnet_text :
    newSubnet e.text =
      ⟨e.bits.value, applySubnetMask e.bits.value e.address.image⟩ := by
  have hfit : e.text.take 127 = e.text :=
    take_of_length_le (le_trans e.length_text (by decide))
  have hslash : '/' ∉ e.address.text := fun h => absurd (e.address.mem_text h) (by decide)
  have hfirst := stringToken_joined e.address.text_ne_nil hslash [e.bits.digits]
  have hsecond := stringToken_last e.bits.nonempty
    (e.bits.not_mem_digits (c := '/') (by decide))
  simp only [newSubnet, hfit]
  rw [AclEntry.text, hfirst, joined, hsecond, ipdecstr2address_text, Numeral.atoi_digits]

end

/-- With enough fuel the loop stores exactly the joined texts. -/
theorem listLoop_joined (texts : List (List Char)) (ht : ∀ t ∈ texts, t ≠ [] ∧ ';' ∉ t)
    (fuel : Nat) (hf : texts.length < fuel) : listLoop fuel (joined ';' texts) = texts := by
  induction texts generalizing fuel with
  | nil =>
    obtain ⟨fuel, rfl⟩ := Nat.exists_eq_succ_of_ne_zero (Nat.ne_of_gt hf)
    rfl
  | cons t texts ih =>
    obtain ⟨fuel, rfl⟩ := Nat.exists_eq_succ_of_ne_zero (Nat.ne_of_gt (Nat.zero_lt_of_lt hf))
    obtain ⟨hne, hsep⟩ := ht t mem_cons_self
    rw [listLoop, stringToken_joined hne hsep]
    simp only [if_neg hne]
    rw [ih (forall_mem_cons.mp ht).2 fuel (Nat.lt_of_succ_lt_succ hf)]

theorem listLoop_text (entries : List AclEntry) :
    listLoop ((AccessList.list entries).text.length + 1) (AccessList.list entries).text =
      entries.map AclEntry.text := by
  have htexts : ∀ t ∈ entries.map AclEntry.text, t ≠ [] ∧ ';' ∉ t := by
    intro t ht
    obtain ⟨e, -, rfl⟩ := mem_map.mp ht
    exact ⟨e.text_ne_nil, e.semicolon_not_mem⟩
  exact listLoop_joined _ htexts _
    (Nat.lt_succ_of_le (length_le_joined _ fun t ht => (htexts t ht).1))

/-- Entry `j` of the table keeps the first `j + 1` bits of a byte. -/
theorem bitmask_getMsbD : ∀ j < 8, ∀ i < 8,
    (bitmask.getD j 0).getMsbD i = decide (i ≤ j) := by
  decide

theorem and_bitmask_eq_iff {j} (hj : j < 8) (x y : BitVec 8) :
    x &&& bitmask.getD j 0 = y &&& bitmask.getD j 0 ↔
      ∀ i ≤ j, x.getMsbD i = y.getMsbD i := by
  constructor
  · intro h i hi
    have hbit := congrArg (BitVec.getMsbD · i) h
    simp only [BitVec.getMsbD_and, bitmask_getMsbD j hj i (by omega), hi, decide_true,
      Bool.and_true] at hbit
    exact hbit
  · intro h
    apply BitVec.eq_of_getMsbD_eq
    intro i hi
    rw [BitVec.getMsbD_and, BitVec.getMsbD_and, bitmask_getMsbD j hj i hi]
    by_cases hij : i ≤ j
    · rw [h i hij]
    · simp [hij]

theorem Agree.byte_eq {x y} (h : Agree bits x y) {j} (hj : 8 * j + 8 ≤ bits) :
    x.getD j 0 = y.getD j 0 := by
  apply BitVec.eq_of_getMsbD_eq
  intro i hi
  have hbit := h (8 * j + i) (by omega)
  rwa [bitAt, bitAt, show (8 * j + i) / 8 = j by omega,
    show (8 * j + i) % 8 = i by omega] at hbit

@[simp] theorem length_applySubnetMask (bits : Nat) (x : Image) :
    (applySubnetMask bits x).length = x.length := by
  simp [applySubnetMask]

theorem applySubnetMask_getD (bits : Nat) (x : Image) {j} (hj : j < x.length) :
    (applySubnetMask bits x).getD j 0 =
      if j < bits / 8 then x.getD j 0
      else if j = bits / 8 then x.getD j 0 &&& bitmask.getD (bits % 8) 0
      else 0 := by
  rw [getD_eq_getElem _ _ (by simpa using hj), getD_eq_getElem _ _ hj]
  simp [applySubnetMask]

/-- The masked images are equal when the images agree on one bit more than the prefix. -/
theorem applySubnetMask_eq_iff {x y} (hlen : x.length = y.length) (hbits : bits / 8 < x.length) :
    applySubnetMask bits x = applySubnetMask bits y ↔ Agree (bits + 1) x y := by
  constructor
  · intro h k hk
    have hbyte : (applySubnetMask bits x).getD (k / 8) 0 =
        (applySubnetMask bits y).getD (k / 8) 0 := by rw [h]
    rw [applySubnetMask_getD bits x (by omega), applySubnetMask_getD bits y (by omega)] at hbyte
    rcases lt_or_eq_of_le (Nat.div_le_div_right (c := 8) (Nat.le_of_lt_succ hk)) with hlt | heq
    · rw [if_pos hlt, if_pos hlt] at hbyte
      rw [bitAt, bitAt, hbyte]
    · rw [if_neg (by omega), if_pos heq, if_neg (by omega), if_pos heq] at hbyte
      exact (and_bitmask_eq_iff (by omega) _ _).mp hbyte (k % 8) (by omega)
  · intro h
    apply ext_getElem (by simpa using hlen)
    intro j hjx hjy
    rw [length_applySubnetMask] at hjx hjy
    rw [← getD_eq_getElem _ 0, ← getD_eq_getElem _ 0, applySubnetMask_getD bits x hjx,
      applySubnetMask_getD bits y hjy]
    rcases lt_trichotomy j (bits / 8) with hlt | heq | hgt
    · rw [if_pos hlt, if_pos hlt]
      exact h.byte_eq (by omega)
    · rw [if_neg (by omega), if_pos heq, if_neg (by omega), if_pos heq]
      refine (and_bitmask_eq_iff (by omega) _ _).mpr fun i hi => ?_
      have hbit := h (8 * j + i) (by omega)
      rwa [bitAt, bitAt, show (8 * j + i) / 8 = j by omega,
        show (8 * j + i) % 8 = i by omega] at hbit
    · rw [if_neg (by omega), if_neg (by omega), if_neg (by omega), if_neg (by omega)]

@[simp] theorem Dotted.length_image (x : Dotted) : x.image.length = 16 := rfl

theorem subnetValidate_text (e : AclEntry) (address : Dotted) :
    subnetValidate (newSubnet e.text) address.image = 1 ↔
      Agree (e.bits.value + 1) address.image e.address.image := by
  have hbits : e.bits.value ≤ 32 := e.bits.le
  rw [newSubnet_text, subnetValidate]
  simp only [ite_eq_left_iff, zero_ne_one, imp_false, not_not]
  exact applySubnetMask_eq_iff rfl (by rw [Dotted.length_image]; omega)

theorem AclEntry.text_ne_word (e : AclEntry) {word} (hw : '/' ∉ word) : e.text ≠ word := by
  rintro rfl
  exact hw (by simp [AclEntry.text_eq])

theorem newSubnetList_entries (entries : List AclEntry) :
    newSubnetList (AccessList.list entries).text =
      (⟨.list, entries.map fun e => newSubnet e.text⟩,
        (List.range (entries.length + 1)).map (⟨·, 100⟩) ++
          (entries.mapIdx fun i e => subnetWrites entries.length i e.bits.value).flatten) := by
  have hhead : ∀ word : List Char, word ≠ [] → '/' ∉ word →
      (entries.map AclEntry.text).headD [] ≠ word := by
    intro word hne hslash
    cases entries with
    | nil => exact hne.symm
    | cons e entries => exact e.text_ne_word hslash
  simp only [newSubnetList, listLoop_text, length_map, map_map]
  rw [if_neg (hhead _ (by decide) (by decide)), if_neg (hhead _ (by decide) (by decide))]
  simp [mapIdx_eq_zipIdx_map, zipIdx_map, Function.comp_def, newSubnet_text]

theorem mem_subnetWrites_inside {n i} (hi : i < n) (hbits : bits ≤ 32) {w}
    (hw : w ∈ subnetWrites n i bits) : w.Inside := by
  simp only [subnetWrites, mem_append, mem_cons, mem_map, mem_range,
    mem_range'_1, not_mem_nil, or_false] at hw
  rcases hw with (((rfl | ⟨k, hk, rfl⟩) | ⟨k, hk, rfl⟩) | ⟨k, hk, rfl⟩) | rfl
  · exact hi
  · exact hk
  · exact hk
  · exact show k < 16 by omega
  · exact show bits / 8 < 16 by omega

/-- `list` has 100 places, one of which goes to the empty token. -/
theorem list_writes_inside_iff (n : Nat) :
    (∀ w ∈ (List.range (n + 1)).map (fun i => BufferWrite.mk i 100), w.Inside) ↔ n < 100 := by
  constructor
  · intro h
    exact h ⟨n, 100⟩ (mem_map.mpr ⟨n, mem_range.mpr (Nat.lt_succ_self n), rfl⟩)
  · intro hn w hw
    obtain ⟨i, hi, rfl⟩ := mem_map.mp hw
    exact lt_of_le_of_lt (Nat.le_of_lt_succ (mem_range.mp hi)) hn

theorem writes_inside_iff (entries : List AclEntry) :
    (∀ w ∈ (newSubnetList (AccessList.list entries).text).2, w.Inside) ↔
      entries.length < 100 := by
  rw [newSubnetList_entries]
  simp only [mem_append, or_imp, forall_and]
  rw [list_writes_inside_iff]
  refine and_iff_left_iff_imp.mpr fun _ w hw => ?_
  obtain ⟨writes, hwrites, hw⟩ := mem_flatten.mp hw
  obtain ⟨i, hi, rfl⟩ := mem_mapIdx.mp hwrites
  exact mem_subnetWrites_inside hi entries[i].bits.le hw

theorem subnetListValidate_entries (localAddress : Image) (entries : List AclEntry)
    (address : Dotted) :
    subnetListValidate localAddress (newSubnetList (AccessList.list entries).text).1
        address.text = 1 ↔
      localAddress = address.image ∨
        ∃ e ∈ entries, Agree (e.bits.value + 1) address.image e.address.image := by
  rw [newSubnetList_entries, subnetListValidate, ipdecstr2address_text]
  have hany : ((entries.map fun e => newSubnet e.text).any fun s =>
        subnetValidate s address.image = 1) = true ↔
      ∃ e ∈ entries, Agree (e.bits.value + 1) address.image e.address.image := by
    simp [subnetValidate_text]
  simp only
  split_ifs with hin hlocal
  · exact iff_of_true rfl (.inr (hany.mp hin))
  · exact iff_of_true rfl (.inl hlocal)
  · exact iff_of_false (by decide) (not_or.mpr ⟨hlocal, fun h => hin (hany.mpr h)⟩)

/-- The filter does its work exactly when the list has fewer than 100 entries and an address
in the network of an entry, unless it is the local one, agrees with some entry in the bit
after the prefix as well. -/
theorem filtered_iff (acl : AccessList) (localAddress : Image) (address : Dotted) :
    Filtered acl localAddress address ↔
      acl.entries.length < 100 ∧
        (localAddress = address.image ∨
          ((∃ e ∈ acl.entries, Agree e.bits.value address.image e.address.image) →
            ∃ e ∈ acl.entries, Agree (e.bits.value + 1) address.image e.address.image)) := by
  cases acl with
  | openList =>
    refine iff_of_true ⟨iff_of_true rfl (.inl rfl), ?_⟩ ⟨by decide, .inr ?_⟩
    · exact (list_writes_inside_iff 1).mpr (by decide)
    · rintro ⟨e, he, -⟩
      exact absurd he not_mem_nil
  | localOnly =>
    refine iff_of_true ⟨?_, (list_writes_inside_iff 1).mpr (by decide)⟩ ⟨by decide, .inr ?_⟩
    · rw [show (newSubnetList AccessList.localOnly.text).1 = ⟨.localOnly, []⟩ from rfl,
        subnetListValidate, ipdecstr2address_text]
      simp [AccessList.entries]
    · rintro ⟨e, he, -⟩
      exact absurd he not_mem_nil
  | list entries =>
    have hsucc : (∃ e ∈ entries, Agree (e.bits.value + 1) address.image e.address.image) →
        ∃ e ∈ entries, Agree e.bits.value address.image e.address.image :=
      fun ⟨e, he, h⟩ => ⟨e, he, fun k hk => h k (Nat.lt_succ_of_lt hk)⟩
    have hopen : AccessList.list entries ≠ .openList := (nomatch ·)
    constructor
    · intro h
      refine ⟨(writes_inside_iff entries).mp h.inside, or_iff_not_imp_left.mpr ?_⟩
      intro hlocal hin
      exact ((subnetListValidate_entries localAddress entries address).mp
        (h.admits.mpr (.inr (.inr hin)))).resolve_left hlocal
    · rintro ⟨hn, h⟩
      refine ⟨?_, (writes_inside_iff entries).mpr hn⟩
      rw [subnetListValidate_entries]
      constructor
      · exact fun hval => .inr (hval.imp_right hsucc)
      · intro hspec
        rcases hspec.resolve_left hopen with hlocal | hin
        · exact .inl hlocal
        · exact h.imp_right (· hin)

/-- `10.0.0.0/8` does not admit `10.128.0.0`. -/
theorem class_a_refused :
    let zero : Numeral 3 255 :=
      ⟨['0'], by decide, by decide, by decide, by decide⟩
    let ten : Numeral 3 255 :=
      ⟨['1', '0'], by decide, by decide, by decide, by decide⟩
    let half : Numeral 3 255 :=
      ⟨['1', '2', '8'], by decide, by decide, by decide, by decide⟩
    let eight : Numeral 2 32 := ⟨['8'], by decide, by decide, by decide, by decide⟩
    let entry : AclEntry := ⟨⟨ten, zero, zero, zero⟩, eight⟩
    let address : Dotted := ⟨ten, half, zero, zero⟩
    let localAddress : Image := List.replicate 16 0
    (AccessList.list [entry]).text = "10.0.0.0/8".toList ∧ address.text = "10.128.0.0".toList ∧
      Agree 8 address.image entry.address.image ∧
      ¬ Filtered (.list [entry]) localAddress address := by
  intro zero ten half eight entry address localAddress
  have hagree : Agree 8 address.image entry.address.image := by decide
  refine ⟨by decide, by decide, hagree, fun h => ?_⟩
  have hval := h.admits.mpr (.inr (.inr ⟨entry, mem_cons_self, hagree⟩))
  exact absurd hval (by decide)

end LStore.Ibp
