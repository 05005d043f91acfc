import Mathlib.Algebra.Order.Ring.Int
import Mathlib.Data.List.Chain

/-!
# Batches of pages

`cache_rw_pages` bundles pages that follow each other into one operation on the child. Error pages,
which have no buffer, are to be left out: they are looked for where a batch starts, and nowhere
else.
-/

namespace LStore.Cache

open List

/-- `lio_page_handle_t`: the offset of the page, and its buffer. -/
structure PageHandle where
  offset : Int
  ptr : Option Nat
deriving DecidableEq, Repr

/-- `cache_rw_iovec_t`: an operation that moves the pages from `offset` on. -/
structure PageOp where
  offset : Int
  page : List PageHandle
deriving DecidableEq, Repr

/-- The buffers of an operation, each with the place in the child it is moved to or from. -/
def PageOp.moves (pageSize : Nat) (op : PageOp) : List (Int × Option Nat) :=
  op.page.zipIdx.map fun (ph, i) => (op.offset + pageSize * i, ph.ptr)

/-- `run` holds the pages from `contig_start` up to the one looked at. -/
structure Batches where
  ops : List PageOp := []
  blank : List PageHandle := []
  run : List PageHandle := []
  off : Int := 0
deriving DecidableEq, Repr

/-- One operation for the pages from `contig_start` on. -/
def Batches.bundle (b : Batches) : Batches :=
  match b.run with
  | [] => b
  | first :: _ => { b with ops := b.ops ++ [⟨first.offset, b.run⟩], run := [] }

/-- The loops that skip error pages, and the start of a batch with the first other page. -/
def Batches.start (pageSize : Nat) (b : Batches) (ph : PageHandle) : Batches :=
  if ph.ptr = none then { b with blank := b.blank ++ [ph] }
  else { b with run := [ph], off := ph.offset + pageSize }

/-- One page of the main loop. The test `ph->data == NULL` is left out: `data` points into the
page. -/
def Batches.turn (pageSize : Nat) (b : Batches) (ph : PageHandle) : Batches :=
  if b.run = [] ∨ ph.offset ≠ b.off then b.bundle.start pageSize ph
  else { b with run := b.run ++ [ph], off := ph.offset + pageSize }

/-- `cache_rw_pages`. -/
def cacheRwPages (pageSize : Nat) (plist : List PageHandle) : Batches :=
  (plist.foldl (Batches.turn pageSize) {}).bundle

/-- The handles given back with `do_release`. -/
def Batches.released (b : Batches) : List PageHandle := b.blank ++ b.ops.flatMap PageOp.page

def PageHandle.piece (ph : PageHandle) : Int × Option Nat := (ph.offset, ph.ptr)

/-- The operations move every page that has a buffer once and in its place and no other page, and
every handle is given back once. -/
def Batches.Exact (pageSize : Nat) (b : Batches) (plist : List PageHandle) : Prop :=
  (b.ops.flatMap (PageOp.moves pageSize)).Perm
      ((plist.filter (·.ptr.isSome)).map PageHandle.piece) ∧
    b.released.Perm plist

/-- The pages that are in an operation or in the batch that is open. -/
def Batches.pages (b : Batches) : List PageHandle := b.ops.flatMap PageOp.page ++ b.run

/-- An error page does not come right behind a page that has a buffer. -/
def PageHandle.Apart (pageSize : Nat) (ph next : PageHandle) : Prop :=
  ph.ptr ≠ none → next.offset = ph.offset + pageSize → next.ptr ≠ none

/-- What holds after the pages `done`. -/
structure Batches.Wf (pageSize : Nat) (done : List PageHandle) (b : Batches) : Prop where
  perm : (b.blank ++ b.pages).Perm done
  blank : ∀ ph ∈ b.blank, ph.ptr = none
  ops : ∀ op ∈ b.ops, op.moves pageSize = op.page.map PageHandle.piece
  run : ∀ first ∈ b.run.head?,
    (PageOp.mk first.offset b.run).moves pageSize = b.run.map PageHandle.piece ∧
      b.off = first.offset + pageSize * b.run.length

/-- A batch is open unless the page before is an error page, and error pages get into a batch only
right behind a page that has a buffer. -/
structure Batches.Tracks (pageSize : Nat) (done : List PageHandle) (b : Batches) : Prop where
  idle : b.run = [] → ∀ last ∈ done.getLast?, last.ptr = none
  busy : b.run ≠ [] → ∃ last ∈ done.getLast?, last ∈ b.run ∧ b.off = last.offset + pageSize
  clean : (∀ ph ∈ b.pages, ph.ptr ≠ none) ↔ done.IsChain (PageHandle.Apart pageSize)

variable {pageSize : Nat} {b : Batches} {done : List PageHandle}

theorem Batches.bundle_run (b : Batches) : b.bundle.run = [] := by
  rw [bundle]
  split
  · assumption
  · rfl

theorem Batches.blank_bundle (b : Batches) : b.bundle.blank = b.blank := by
  rw [bundle]
  split <;> rfl

theorem Batches.pages_bundle (b : Batches) : b.bundle.pages = b.pages := by
  rw [bundle]
  split <;> simp [pages]

/-- What a page does to the batches. -/
theorem Batches.turn_cases (pageSize : Nat) (b : Batches) (ph : PageHandle) :
    (b.run = [] ∨ ph.offset ≠ b.off) ∧ (ph.ptr = none ∧
        b.turn pageSize ph = { b.bundle with blank := b.bundle.blank ++ [ph] } ∨
      ph.ptr ≠ none ∧
        b.turn pageSize ph = { b.bundle with run := [ph], off := ph.offset + pageSize }) ∨
    (b.run ≠ [] ∧ ph.offset = b.off) ∧
      b.turn pageSize ph = { b with run := b.run ++ [ph], off := ph.offset + pageSize } := by
  rw [turn, start]
  split_ifs with hcut hptr
  · exact .inl ⟨hcut, .inl ⟨hptr, rfl⟩⟩
  · exact .inl ⟨hcut, .inr ⟨hptr, rfl⟩⟩
  · exact .inr ⟨by push Not at hcut; exact hcut, rfl⟩

theorem Batches.Wf.bundle (h : b.Wf pageSize done) : b.bundle.Wf pageSize done := by
  refine ⟨?_, ?_, ?_, ?_⟩
  · rw [pages_bundle, blank_bundle]
    exact h.perm
  · rw [blank_bundle]
    exact h.blank
  · rw [Batches.bundle]
    split
    · exact h.ops
    · rename_i first rest hrun
      exact forall_mem_append.mpr ⟨h.ops, forall_mem_singleton.mpr (h.run first (by simp [hrun])).1⟩
  · rw [bundle_run]
    nofun

theorem Batches.Wf.turn (h : b.Wf pageSize done) (ph : PageHandle) :
    (b.turn pageSize ph).Wf pageSize (done ++ [ph]) := by
  obtain ⟨-, ⟨hptr, heq⟩ | ⟨-, heq⟩⟩ | ⟨⟨hrun, hoff⟩, heq⟩ := b.turn_cases pageSize ph <;> rw [heq]
  · obtain ⟨hperm, hblank, hops, hrun⟩ := h.bundle
    refine ⟨?_, forall_mem_append.mpr ⟨hblank, forall_mem_singleton.mpr hptr⟩, hops, hrun⟩
    refine .trans ?_ (hperm.append_right [ph])
    rw [append_assoc, append_assoc]
    exact perm_append_comm.append_left _
  · obtain ⟨hperm, hblank, hops, -⟩ := h.bundle
    refine ⟨?_, hblank, hops, ?_⟩
    · simpa [pages, bundle_run] using hperm.append_right [ph]
    · rintro _ ⟨⟩
      simp [PageOp.moves, PageHandle.piece]
  · obtain ⟨first, hfirst⟩ := Option.isSome_iff_exists.mp (isSome_head?.mpr hrun)
    obtain ⟨hmoves, hnext⟩ := h.run first hfirst
    refine ⟨?_, h.blank, h.ops, ?_⟩
    · simpa [pages] using h.perm.append_right [ph]
    · rw [head?_append_of_ne_nil _ hrun, hfirst]
      rintro _ ⟨⟩
      simp only [PageOp.moves] at hmoves ⊢
      simp only [zipIdx_append, map_append, hmoves]
      simp [PageHandle.piece, hoff, hnext, mul_add, add_assoc]

theorem Batches.Tracks.turn (h : b.Tracks pageSize done) (ph : PageHandle) :
    (b.turn pageSize ph).Tracks pageSize (done ++ [ph]) := by
  have hchain : (done ++ [ph]).IsChain (PageHandle.Apart pageSize) ↔
      (∀ p ∈ b.pages, p.ptr ≠ none) ∧ ∀ last ∈ done.getLast?, last.Apart pageSize ph := by
    rw [isChain_append, h.clean]
    simp
  have hcut (hcut : b.run = [] ∨ ph.offset ≠ b.off) (last) (hlast : last ∈ done.getLast?) :
      last.Apart pageSize ph := by
    intro hptr hnext
    by_cases hrun : b.run = []
    · exact absurd (h.idle hrun last hlast) hptr
    · obtain ⟨_, hmem, -, hoff⟩ := h.busy hrun
      obtain rfl := Option.mem_unique hlast hmem
      exact absurd (hnext.trans hoff.symm) (hcut.resolve_left hrun)
  obtain ⟨hc, ⟨hptr, heq⟩ | ⟨hptr, heq⟩⟩ | ⟨⟨hrun, hoff⟩, heq⟩ := b.turn_cases pageSize ph <;>
    rw [heq]
  · refine ⟨fun _ => by simpa using hptr, fun hrun => absurd b.bundle_run hrun, ?_⟩
    rw [hchain, and_iff_left (hcut hc)]
    exact iff_of_eq (congrArg (∀ p ∈ ·, p.ptr ≠ none) b.pages_bundle)
  · refine ⟨nofun, fun _ => ⟨ph, by simp, by simp, rfl⟩, ?_⟩
    have hpages := b.pages_bundle
    rw [pages, bundle_run, append_nil] at hpages
    rw [hchain, and_iff_left (hcut hc), pages]
    simp only [hpages]
    simp [or_imp, forall_and, hptr]
  · refine ⟨fun hnil => by simp at hnil, fun _ => ⟨ph, by simp, by simp, rfl⟩, ?_⟩
    obtain ⟨last, hlast, hmem, hnext⟩ := h.busy hrun
    have hpages : pages { b with run := b.run ++ [ph], off := ph.offset + pageSize } =
        b.pages ++ [ph] := (append_assoc ..).symm
    rw [hchain, hpages, forall_mem_append, forall_mem_singleton]
    refine and_congr_right fun hb => ⟨fun hptr _ _ _ _ => hptr, fun hapart => ?_⟩
    exact hapart last hlast (hb last (mem_append_right _ hmem)) (hoff.trans hnext)

theorem Batches.after_all (pageSize : Nat) (plist : List PageHandle) :
    let b := plist.foldl (Batches.turn pageSize) {}
    b.Wf pageSize plist ∧ b.Tracks pageSize plist := by
  have hall (l : List PageHandle) {b done} (h : Wf pageSize done b) (ht : b.Tracks pageSize done) :
      (l.foldl (Batches.turn pageSize) b).Wf pageSize (done ++ l) ∧
        (l.foldl (Batches.turn pageSize) b).Tracks pageSize (done ++ l) := by
    induction l generalizing b done with
    | nil => simpa using ⟨h, ht⟩
    | cons ph l ih => simpa using ih (h.turn ph) (ht.turn ph)
  have hstart : Wf pageSize [] {} := ⟨.nil, nofun, nofun, nofun⟩
  exact hall plist hstart ⟨nofun, nofun, by simp [pages]⟩

/-- The batches are right unless an error page comes right behind a page that has a buffer. -/
theorem cacheRwPages_exact_iff (pageSize : Nat) (plist : List PageHandle) :
    (cacheRwPages pageSize plist).Exact pageSize plist ↔
      plist.IsChain (PageHandle.Apart pageSize) := by
  obtain ⟨hwf, htracks⟩ := Batches.after_all pageSize plist
  rw [← htracks.clean, ← Batches.pages_bundle]
  obtain ⟨hperm, hblank, hops, -⟩ := hwf.bundle
  have hrun := (plist.foldl (Batches.turn pageSize) {}).bundle_run
  rw [← cacheRwPages] at *
  generalize cacheRwPages pageSize plist = b at *
  have hpages : b.pages = b.ops.flatMap PageOp.page := by rw [Batches.pages, hrun, append_nil]
  have hmoves : b.ops.flatMap (PageOp.moves pageSize) = b.pages.map PageHandle.piece := by
    rw [hpages, map_flatMap]
    exact flatMap_congr hops
  rw [Batches.Exact, hmoves, Batches.released, ← hpages, and_iff_left hperm]
  refine ⟨fun h ph hph hptr => ?_, fun h => .map _ (.trans (.of_eq ?_) (hperm.filter _))⟩
  · obtain ⟨q, hq, heq⟩ := mem_map.mp (h.subset (mem_map_of_mem hph))
    have hq_ptr : q.ptr = ph.ptr := congrArg Prod.snd heq
    simp [hq_ptr, hptr] at hq
  · have hnone : b.blank.filter (·.ptr.isSome) = [] :=
      filter_eq_nil_iff.mpr fun ph hph => by simp [hblank ph hph]
    have hsome : b.pages.filter (·.ptr.isSome) = b.pages :=
      filter_eq_self.mpr fun ph hph => Option.isSome_iff_ne_none.mpr (h ph hph)
    rw [filter_append, hnone, hsome, nil_append]

theorem cacheRwPages_takes_error_page :
    ¬ (cacheRwPages 4 [⟨0, some 1⟩, ⟨4, none⟩]).Exact 4 [⟨0, some 1⟩, ⟨4, none⟩] := by
  rw [Batches.Exact]
  decide

end LStore.Cache
