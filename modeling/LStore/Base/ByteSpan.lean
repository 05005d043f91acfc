import Mathlib.Data.List.Basic

/-!
# Spans of integers and pointwise writes

A transfer moves bytes between two sequences of positions, each given by
extents. `span` lists the positions of a half-open interval, `writeAll` performs
a list of single writes in order. Writes that are distributed over several stores
act on each position as the undistributed list does.
-/

namespace ByteSpan

open List Function

/-- The integers of `[a, b)`, in order. -/
def span (a b : Int) : List Int := (List.range (b - a).toNat).map fun k : Nat => a + (k : Int)

variable {a b c x : Int}

@[simp] theorem length_span (a b : Int) : (span a b).length = (b - a).toNat := by
  simp [span]

@[simp] theorem mem_span : x ∈ span a b ↔ a ≤ x ∧ x < b := by
  simp only [span, mem_map, mem_range]
  constructor
  · rintro ⟨k, hk, rfl⟩
    omega
  · rintro ⟨hle, hlt⟩
    exact ⟨(x - a).toNat, by omega, by omega⟩

theorem span_eq_nil (h : b ≤ a) : span a b = [] := by
  rw [← length_eq_zero_iff, length_span]
  omega

theorem span_cons (h : a < b) : span a b = a :: span (a + 1) b := by
  have hlen : (b - a).toNat = (b - (a + 1)).toNat + 1 := by omega
  simp only [span, hlen, range_succ_eq_map, map_cons, map_map]
  congr 1
  · simp
  · refine map_congr_left fun k _ => ?_
    simp only [comp_apply, Nat.succ_eq_add_one]
    omega

theorem span_append (hab : a ≤ b) (hbc : b ≤ c) : span a b ++ span b c = span a c := by
  obtain ⟨n, rfl⟩ : ∃ n : Nat, b = a + n := ⟨(b - a).toNat, by omega⟩
  induction n generalizing a with
  | zero => simp [span_eq_nil]
  | succ n ih =>
    have hstep : a + 1 + (n : Int) = a + (n + 1 : Nat) := by omega
    have hrest := ih (a := a + 1) (by omega) (by omega)
    rw [hstep] at hrest
    rw [span_cons (by omega), cons_append, hrest, ← span_cons (by omega)]

/-- Shifting a span. -/
theorem map_add_span (d a b : Int) : (span a b).map (fun x => d + x) = span (d + a) (d + b) := by
  have hlen : (d + b - (d + a)).toNat = (b - a).toNat := by omega
  simp only [span, hlen, map_map]
  refine map_congr_left fun k _ => ?_
  simp only [comp_apply]
  omega

theorem take_span (n : Nat) (h : a + n ≤ b) : (span a b).take n = span a (a + n) := by
  rw [← span_append (show a ≤ a + n by omega) h, take_left' (by rw [length_span]; omega)]

theorem drop_span (n : Nat) (h : a + n ≤ b) : (span a b).drop n = span (a + n) b := by
  rw [← span_append (show a ≤ a + n by omega) h, drop_left' (by rw [length_span]; omega)]

variable {ι β : Type*} [DecidableEq ι] {ps : List (ι × β)}

/-- Perform single writes in order. -/
def writeAll (ps : List (ι × β)) (f : ι → β) : ι → β :=
  ps.foldl (fun f p => Function.update f p.1 p.2) f

@[simp] theorem writeAll_nil (f : ι → β) : writeAll [] f = f := rfl

@[simp] theorem writeAll_cons (p : ι × β) (ps : List (ι × β)) (f : ι → β) :
    writeAll (p :: ps) f = writeAll ps (Function.update f p.1 p.2) := rfl

theorem writeAll_append (ps qs : List (ι × β)) (f : ι → β) :
    writeAll (ps ++ qs) f = writeAll qs (writeAll ps f) := by
  simp [writeAll]

theorem writeAll_of_notMem {i} (h : ∀ p ∈ ps, p.1 ≠ i) (f : ι → β) : writeAll ps f i = f i := by
  induction ps generalizing f with
  | nil => rfl
  | cons p ps ih =>
    obtain ⟨hp, h'⟩ := forall_mem_cons.mp h
    rw [writeAll_cons, ih h']
    exact update_of_ne hp.symm _ _

/-- A position that is written with one value only ends up with it. -/
theorem writeAll_eq {i v} (hmem : (i, v) ∈ ps) (hval : ∀ p ∈ ps, p.1 = i → p.2 = v) (f : ι → β) :
    writeAll ps f i = v := by
  induction ps generalizing f with
  | nil => simp at hmem
  | cons p ps ih =>
    rw [writeAll_cons]
    by_cases hlater : (i, v) ∈ ps
    · exact ih hlater (forall_mem_cons.mp hval).2 _
    · have hnone : ∀ q ∈ ps, q.1 ≠ i := by
        intro q hq heq
        have hv := hval q (by simp [hq]) heq
        exact hlater (by rw [← heq, ← hv]; exact hq)
      obtain rfl : (i, v) = p := (mem_cons.mp hmem).resolve_right hlater
      rw [writeAll_of_notMem hnone]
      exact update_self _ _ _

/-- The writes to the positions of one store, at their places there, leave at a
position of that store what all the writes leave. -/
theorem writeAll_filter_place {κ} [DecidableEq κ] (sel : ι → Bool) (place : ι → κ) {x}
    (hx : sel x = true) (hinj : ∀ y, sel y = true → place y = place x → y = x) (ps : List (ι × β))
    {f g} (hfg : g (place x) = f x) :
    writeAll ((ps.filter fun p => sel p.1).map fun p => (place p.1, p.2)) g (place x) =
      writeAll ps f x := by
  induction ps generalizing f g with
  | nil => exact hfg
  | cons p ps ih =>
    by_cases hp : sel p.1 = true
    · rw [filter_cons_of_pos (p := fun q : ι × β => sel q.1) hp, map_cons, writeAll_cons, writeAll_cons]
      refine ih ?_
      by_cases hpx : p.1 = x
      · rw [hpx, update_self, update_self]
      · have hplace : place x ≠ place p.1 := fun h => hpx (hinj _ hp h.symm)
        rw [update_of_ne hplace, update_of_ne (Ne.symm hpx), hfg]
    · have hpx : x ≠ p.1 := by
        rintro rfl
        exact hp hx
      rw [filter_cons_of_neg (p := fun q : ι × β => sel q.1) hp, writeAll_cons]
      exact ih (by rw [update_of_ne hpx, hfg])

variable {κ γ ω : Type*} [DecidableEq κ] (key : ω → κ) (eff : ω → γ → γ)

/-- Operations on the components of a family, one after the other. -/
def runKeyed (ops : List ω) (f : κ → γ) : κ → γ :=
  ops.foldl (fun f o => Function.update f (key o) (eff o (f (key o)))) f

theorem runKeyed_of_notMem {ops k} (h : ∀ o ∈ ops, key o ≠ k) (f : κ → γ) :
    runKeyed key eff ops f k = f k := by
  induction ops generalizing f with
  | nil => rfl
  | cons o ops ih =>
    obtain ⟨ho, h'⟩ := forall_mem_cons.mp h
    have hrest := ih h' (update f (key o) (eff o (f (key o))))
    rw [update_of_ne ho.symm] at hrest
    exact hrest

/-- With distinct keys each operation finds its component as it was. -/
theorem runKeyed_of_mem {ops} (hnd : (ops.map key).Nodup) {o} (ho : o ∈ ops) (f : κ → γ) :
    runKeyed key eff ops f (key o) = eff o (f (key o)) := by
  induction ops generalizing f with
  | nil => simp at ho
  | cons o' ops ih =>
    rw [map_cons, nodup_cons] at hnd
    obtain ⟨hnew, hnd⟩ := hnd
    rcases mem_cons.mp ho with rfl | ho
    · have hother : ∀ x ∈ ops, key x ≠ key o := fun x hx heq =>
        hnew (heq ▸ mem_map_of_mem hx)
      have hrest := runKeyed_of_notMem key eff hother
        (update f (key o) (eff o (f (key o))))
      rw [update_self] at hrest
      exact hrest
    · have hne : key o ≠ key o' := fun heq => hnew (heq ▸ mem_map_of_mem ho)
      have hrest := ih hnd ho (update f (key o') (eff o' (f (key o'))))
      rw [update_of_ne hne] at hrest
      exact hrest

/-- Extents in order, as the positions they cover. -/
def positions (es : List (Int × Int)) : List Int := es.flatMap fun e => span e.1 (e.1 + e.2)

@[simp] theorem positions_nil : positions [] = [] := rfl

@[simp] theorem positions_append (es fs : List (Int × Int)) :
    positions (es ++ fs) = positions es ++ positions fs := by
  simp [positions]

@[simp] theorem positions_cons (e : Int × Int) (es : List (Int × Int)) :
    positions (e :: es) = span e.1 (e.1 + e.2) ++ positions es := by
  simp [positions]

variable {α : Type*} {as : List α}

/-- The positions of `[u, v)`, each with its entry of `as` from index `b` on. -/
def paired (as : List α) (b : Nat) (u v : Int) : List (Int × α) :=
  (span u v).zip ((as.drop b).take (v - u).toNat)

/-- The positions `xs`, each with its entry of `as` from index `b` on. -/
def listed (as : List α) (b : Nat) (xs : List Int) : List (Int × α) :=
  xs.zip ((as.drop b).take xs.length)

theorem paired_eq_listed (as : List α) (b : Nat) (u v : Int) :
    paired as b u v = listed as b (span u v) := by
  rw [paired, listed, length_span]

theorem length_window {b n} (h : b + n ≤ as.length) : ((as.drop b).take n).length = n := by
  rw [length_take, length_drop]
  omega

theorem window_append (as : List α) (b m n : Nat) :
    (as.drop b).take m ++ (as.drop (b + m)).take n = (as.drop b).take (m + n) := by
  rw [take_add, drop_drop]

theorem listed_append (as : List α) (b : Nat) (xs ys : List Int)
    (hb : b + (xs ++ ys).length ≤ as.length) :
    listed as b (xs ++ ys) = listed as b xs ++ listed as (b + xs.length) ys := by
  rw [length_append] at hb
  have hlen : xs.length = ((as.drop b).take xs.length).length := by
    rw [length_window (by omega)]
  rw [listed, listed, listed, ← zip_append hlen, window_append, length_append]

theorem paired_append {b u m v} (hum : u ≤ m) (hmv : m ≤ v) (hb : b + (v - u).toNat ≤ as.length) :
    paired as b u m ++ paired as (b + (m - u).toNat) m v = paired as b u v := by
  rw [paired_eq_listed as b u v, ← span_append hum hmv, listed_append, ← paired_eq_listed,
    ← paired_eq_listed, length_span]
  rwa [span_append hum hmv, length_span]

/-- Shifting the positions of a pairing. -/
theorem paired_add (as : List α) (b : Nat) (d u v : Int) :
    paired as b (d + u) (d + v) = (paired as b u v).map fun p => (d + p.1, p.2) := by
  have hlen : d + v - (d + u) = v - u := by omega
  rw [paired, paired, hlen, ← map_add_span, zip_map_left]
  rfl

theorem paired_eq_nil {b u v} (h : v ≤ u) : paired as b u v = [] := by
  rw [paired, span_eq_nil h, zip_nil_left]

theorem mem_span_of_paired {b u v p} (h : p ∈ paired as b u v) : u ≤ p.1 ∧ p.1 < v :=
  mem_span.mp (of_mem_zip h).1

/-- A test that singles out `[c, d)` inside `[u, v)` keeps exactly its pairs. -/
theorem filter_paired (sel : Int → Bool) {b u c d v} (huc : u ≤ c) (hcd : c ≤ d) (hdv : d ≤ v)
    (hb : b + (v - u).toNat ≤ as.length)
    (hsel : ∀ x, u ≤ x → x < v → (sel x = true ↔ c ≤ x ∧ x < d)) :
    (paired as b u v).filter (fun p => sel p.1) = paired as (b + (c - u).toNat) c d := by
  have hmid : b + (c - u).toNat + (d - c).toNat = b + (d - u).toNat := by omega
  rw [← paired_append huc (Int.le_trans hcd hdv) hb, ← paired_append hcd hdv (by omega), hmid,
    filter_append, filter_append]
  have hout : ∀ {k x y}, u ≤ x → y ≤ v → y ≤ c ∨ d ≤ x →
      (paired as k x y).filter (fun p => sel p.1) = [] := by
    intro k x y hux hyv hxy
    rw [filter_eq_nil_iff]
    intro p hp hs
    have hmem := mem_span_of_paired hp
    have := (hsel p.1 (by omega) (by omega)).mp hs
    omega
  have hin : (paired as (b + (c - u).toNat) c d).filter (fun p => sel p.1) =
      paired as (b + (c - u).toNat) c d := by
    rw [filter_eq_self]
    intro p hp
    have hmem := mem_span_of_paired hp
    exact (hsel p.1 (by omega) (by omega)).mpr hmem
  rw [hout (Int.le_refl u) (by omega) (.inl (Int.le_refl c)),
    hout (by omega) (Int.le_refl v) (.inr (Int.le_refl d)), hin, nil_append, append_nil]

end ByteSpan
