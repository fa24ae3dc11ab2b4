/-
# Lkv.System.Rewrite — the files a compaction goes through

A compaction writes the live entries twice.  `Rewrite c` is what it is about to write
over contents `c`: the staging contents behind the old log, then the final contents at
the front of the file.  `Rewrite.move` are the bytes of that, and the lemmas say what
each of the files `marked` … `cut` holds.

Every one of these files recovers to the same map, also when the next write only came
half way (`stage_survives` … `cut_survives`), provided that a torn root page does not
pass for a third root.
-/
import Lkv.System.Lifecycle

namespace Lkv
open Lkv.Theory Dictionary

set_option autoImplicit false

/-- Contents as a compaction of `c` writes them, first behind the log and then at the
front. -/
structure Rewrite {C : Crates} (c : Contents C) where
  staging : Contents C
  final : Contents C
  stagingMap : staging.map = c.map
  finalMap : final.map = c.map
  stagingFresh : staging.batches = []
  finalFresh : final.batches = []
  front : final.root.baseOffset = dataStart
  behind : c.logEnd + logHeaderSize ≤ staging.root.baseOffset
  gap : final.logEnd + logHeaderSize ≤ staging.root.baseOffset
  word : staging.logEnd < 2 ^ 64

namespace Contents

variable {C : Crates} {c : Contents C} {f g : File} {tail : Bytes}

theorem Held.page (held : c.Held f) (agrees : File.AgreesOutside 0 dataStart f g) : c.Held g :=
  held.agrees agrees (.inr c.above)

theorem page_len (long : dataStart ≤ f.len) (agrees : File.AgreesOutside 0 dataStart f g) :
    g.len = f.len := by
  have := agrees.le_len
  have := agrees.len_le
  omega

theorem Image.page (image : c.Image f tail) (agrees : File.AgreesOutside 0 dataStart f g)
    (rooted : Rooted g c.root) : c.Image g tail := by
  have start := c.dataStart_le_logEnd
  have len := page_len image.rooted.long agrees
  exact ⟨rooted, image.held.page agrees, agrees.holds image.ends (.inr start), len.trans image.len,
    image.dead, len ▸ image.word⟩

theorem Marked.page (marked : c.Marked f) (agrees : File.AgreesOutside 0 dataStart f g)
    (rooted : Rooted g c.root) : c.Marked g := by
  have start := c.dataStart_le_logEnd
  have len := page_len marked.rooted.long agrees
  exact ⟨rooted, marked.held.page agrees, agrees.holds marked.marker (.inr start),
    len.ge.trans' marked.long, len ▸ marked.word⟩

theorem log_of_fresh (fresh : c.batches = []) : c.log = [] := by
  rw [log, fresh]
  rfl

theorem logEnd_of_fresh (fresh : c.batches = []) : c.logEnd = c.root.logStart := by
  rw [logEnd, log_of_fresh fresh]
  rfl

/-- Where the Base is, fresh contents are. -/
theorem held_of_fresh (fresh : c.batches = [])
    (base : f.Holds c.root.baseOffset (segmentBytes c.data)) : c.Held f := by
  refine ⟨base, ?_⟩
  rw [log_of_fresh fresh]
  rfl

theorem base_length (fresh : c.batches = []) :
    c.root.baseOffset + (segmentBytes c.data).length = c.logEnd := by
  rw [c.base_end, logEnd_of_fresh fresh]

end Contents

namespace Rewrite

variable {C : Crates} {c : Contents C} (r : Rewrite c) (f : File)

/-- The bytes of it. -/
def move : Move := ⟨c.logEnd, ⟨r.staging.root, r.staging.data⟩, ⟨r.final.root, r.final.data⟩⟩

section Sizes

theorem staging_end : r.staging.root.baseOffset ≤ r.staging.logEnd := by
  rw [← r.staging.base_length r.stagingFresh]
  exact Nat.le_add_right _ _

include r in
theorem marker_word : c.logEnd + logHeaderSize < 2 ^ 64 :=
  lt_of_le_of_lt (r.behind.trans r.staging_end) r.word

theorem final_below : r.final.logEnd ≤ r.staging.root.baseOffset :=
  (Nat.le_add_right _ _).trans r.gap

theorem staging_some : segmentBytes r.staging.data ≠ [] := by
  intro nothing
  have size := r.staging.size
  have := r.staging.header_le
  rw [size, nothing] at this
  exact absurd this (by decide)

theorem final_length : dataStart + (segmentBytes r.final.data).length = r.final.logEnd := by
  rw [← r.front]
  exact r.final.base_length r.finalFresh

end Sizes

section Milestones

variable {f} {g : File}

theorem marked_marked (image : c.Image f []) : c.Marked (r.move.marked f) := image.marked r.marker_word

theorem marked_len (image : c.Image f []) : (r.move.marked f).len = c.logEnd + logHeaderSize := by
  have len : f.len = c.logEnd := image.len
  rw [Move.marked, File.write_len f _ compactMarker_ne_nil, compactMarker_length]
  show max f.len (c.logEnd + logHeaderSize) = _
  omega

/-- The staging Base comes behind the marker. -/
theorem staged_agrees : File.AgreesOutside r.staging.root.baseOffset r.staging.logEnd
    (r.move.marked f) (r.move.staged f) :=
  File.AgreesOutside.write _ le_rfl (r.staging.base_length r.stagingFresh).le

theorem staged_marked (image : c.Image f []) : c.Marked (r.move.staged f) :=
  (r.marked_marked image).agrees r.staged_agrees r.behind r.word

theorem staged_held : r.staging.Held (r.move.staged f) :=
  r.staging.held_of_fresh r.stagingFresh (File.holds_write _ _ _)

theorem staged_len (image : c.Image f []) : (r.move.staged f).len = r.staging.logEnd := by
  have := r.behind
  have := r.staging_end
  have ends := r.staging.base_length r.stagingFresh
  have len := File.write_len (r.move.marked f) r.staging.root.baseOffset r.staging_some
  rw [r.marked_len image] at len
  refine len.trans ?_
  omega

/-- Wherever the staging root is the root, the staging contents are an image. -/
theorem staging_image (image : c.Image f []) (agrees : File.AgreesOutside 0 dataStart (r.move.staged f) g)
    (rooted : Rooted g r.staging.root) : r.staging.Image g [] := by
  have len := (Contents.page_len (r.staged_marked image).rooted.long agrees).trans
    (r.staged_len image)
  exact ⟨rooted, r.staged_held.page agrees, rfl, len, .short (by decide), len ▸ r.word⟩

theorem final_logStart : r.final.root.logStart = r.final.logEnd :=
  (r.final.logEnd_of_fresh r.finalFresh).symm

theorem moved_agrees : File.AgreesOutside dataStart r.final.logEnd (r.move.switched f) (r.move.moved f) := by
  refine File.AgreesOutside.write _ r.front.ge ?_
  show r.final.root.baseOffset + (segmentBytes r.final.data).length ≤ _
  rw [r.front, r.final_length]

theorem moved_held : r.final.Held (r.move.moved f) :=
  r.final.held_of_fresh r.finalFresh (File.holds_write _ _ _)

theorem fenced_agrees :
    File.AgreesOutside dataStart r.staging.root.baseOffset (r.move.switched f) (r.move.fenced f) := by
  refine (r.moved_agrees.mono le_rfl r.final_below).trans (File.AgreesOutside.write _ ?_ ?_)
  · show dataStart ≤ r.final.root.logStart
    rw [r.final_logStart]
    exact r.final.dataStart_le_logEnd
  · show r.final.root.logStart + compactMarker.length ≤ _
    rw [r.final_logStart, compactMarker_length]
    exact r.gap

theorem fenced_held : r.final.Held (r.move.fenced f) := by
  rw [Move.fenced]
  show r.final.Held ((r.move.moved f).write r.final.root.logStart compactMarker)
  rw [r.final_logStart]
  exact r.moved_held.write_end compactMarker

theorem fenced_marker : (r.move.fenced f).Holds r.final.logEnd compactMarker := by
  rw [← r.final_logStart]
  exact File.holds_write _ _ _

section Next

variable (image : c.Image f []) (next : r.staging.root.generation = c.root.generation + 1)
include image next

theorem switched_image : r.staging.Image (r.move.switched f) [] :=
  r.staging_image image (page_agrees _ _ r.staging.root.encodePage_length.le)
    ((r.staged_marked image).rooted.published next)

/-- Writes between the pages and the staging Base. -/
theorem switched_agrees
    (agrees : File.AgreesOutside dataStart r.staging.root.baseOffset (r.move.switched f) g) :
    r.staging.Image g [] :=
  (r.switched_image image next).agrees agrees le_rfl le_rfl

theorem fenced_image : r.staging.Image (r.move.fenced f) [] :=
  r.switched_agrees image next r.fenced_agrees

/-- Wherever the final root is the root, the final contents end in a marker. -/
theorem final_marked
    (agrees : File.AgreesOutside 0 dataStart (r.move.fenced f) g) (rooted : Rooted g r.final.root) :
    r.final.Marked g := by
  have start := r.final.dataStart_le_logEnd
  have fenced := r.fenced_image image next
  have len := (Contents.page_len fenced.rooted.long agrees).trans fenced.len
  refine ⟨rooted, r.fenced_held.page agrees, agrees.holds r.fenced_marker (.inr start), ?_, ?_⟩
  · rw [len]
    exact r.gap.trans r.staging_end
  · rw [len]
    exact r.word

end Next

section Final

variable (next : r.staging.root.generation = c.root.generation + 1)
variable (last : r.final.root.generation = r.staging.root.generation + 1)
include next last

theorem settled_marked (image : c.Image f []) : r.final.Marked (r.move.settled f) :=
  r.final_marked image next (page_agrees _ _ r.final.root.encodePage_length.le)
    ((r.fenced_image image next).rooted.published last)

omit next last in
theorem doubled_agrees : File.AgreesOutside 0 dataStart (r.move.settled f) (r.move.doubled f) :=
  page_agrees _ _ r.final.root.encodePage_length.le

omit next last in
/-- Both pages hold the final root. -/
theorem doubled_pages : r.final.root.OnPage (pageAt (r.move.doubled f) r.final.root.generation) ∧
    r.final.root.OnPage (pageAt (r.move.doubled f) (r.final.root.generation + 1)) := by
  constructor
  · have other := @pageAt_write_other r.final.root.encodePage (r.move.settled f)
      (r.final.root.generation + 1) r.final.root.encodePage_length.le
    rw [pageAt_add_two, pageAt_add_two] at other
    have page := other.trans (pageAt_encodePage (r.move.fenced f) r.final.root _)
    exact (congrArg r.final.root.OnPage page).mpr r.final.root.onPage_encodePage
  · have page := pageAt_encodePage (r.move.settled f) r.final.root (r.final.root.generation + 1)
    exact (congrArg r.final.root.OnPage page).mpr r.final.root.onPage_encodePage

theorem doubled_marked (image : c.Image f []) : r.final.Marked (r.move.doubled f) := by
  have agrees := r.doubled_agrees (f := f)
  have settled := r.settled_marked next last image
  refine settled.page agrees (rooted_both (settled.rooted.long.trans agrees.le_len) ?_ ?_)
  · exact r.doubled_pages.1
  · exact r.doubled_pages.2

theorem cut_image (image : c.Image f []) : r.final.Image (r.move.cut f) [] := by
  obtain ⟨tail, marked⟩ := (r.doubled_marked next last image).image
  rw [Move.cut]
  show r.final.Image ((r.move.doubled f).setLen r.final.root.logStart) []
  rw [r.final_logStart]
  exact marked.truncate

end Final

theorem cut_pages (generation : Nat) :
    pageAt (r.move.cut f) generation = pageAt (r.move.doubled f) generation := by
  have start := r.final.dataStart_le_logEnd
  rw [← r.final_logStart] at start
  exact pageAt_congr (fun i below => File.setLen_byte _ (lt_of_lt_of_le below start)) generation

end Milestones

/-! ## Crashes -/

section Crash

variable {f} {staging final effects : List Effect} {limit : Nat} {quiet : Prop}

theorem staged_page (generation : Nat) :
    pageAt (r.move.staged f) generation = pageAt f generation := by
  have start := c.dataStart_le_logEnd
  have above := r.staging.above
  refine pageAt_congr (fun i below => ?_) generation
  rw [r.staged_agrees.byte i (.inl (by omega))]
  exact File.write_byte_of_outside _ (.inl (lt_of_lt_of_le below start))

theorem fenced_page (generation : Nat) :
    pageAt (r.move.fenced f) generation = pageAt (r.move.switched f) generation :=
  pageAt_congr (fun i below => r.fenced_agrees.byte i (.inl below)) generation

theorem switched_page : pageAt (r.move.switched f) r.staging.root.generation = r.staging.root.encodePage :=
  pageAt_encodePage _ r.staging.root _

theorem switched_other (next : r.staging.root.generation = c.root.generation + 1) :
    pageAt (r.move.switched f) (r.staging.root.generation + 1) = pageAt f c.root.generation := by
  have other := @pageAt_write_other _ (r.move.staged f) r.staging.root.generation
    r.staging.root.encodePage_length.le
  refine other.trans ?_
  rw [next, pageAt_add_two, r.staged_page]

theorem settled_other (last : r.final.root.generation = r.staging.root.generation + 1) :
    pageAt (r.move.settled f) (r.final.root.generation + 1) = r.staging.root.encodePage := by
  have other := @pageAt_write_other _ (r.move.fenced f) r.final.root.generation
    r.final.root.encodePage_length.le
  refine other.trans ?_
  rw [r.fenced_page, last, pageAt_add_two, r.switched_page]

theorem stored_one {g : File} {m : Bytes → Option Bytes} (short : g.len ≤ limit)
    (recovers : Recovers C m g) : Stored C limit [m] g :=
  ⟨short, m, List.mem_singleton.mpr rfl, recovers⟩

/-- A page write, as far as it came. -/
theorem stored_page {g : File} (root : Superblock) (generation n : Nat) (long : dataStart ≤ g.len)
    (len : g.len ≤ limit) {m : Bytes → Option Bytes}
    (recovers : ∀ g', File.AgreesOutside 0 dataStart g g' →
      g' = g.write (Superblock.pageOffset generation) (root.encodePage.take n) → Recovers C m g') :
    Stored C limit [m] (g.write (Superblock.pageOffset generation) (root.encodePage.take n)) := by
  have small : (root.encodePage.take n).length ≤ superblockSize :=
    (List.length_take_le' n _).trans root.encodePage_length.le
  have agrees := page_agrees g generation small
  refine stored_one ?_ (recovers _ agrees rfl)
  rw [Contents.page_len long agrees]
  exact len

theorem moveEffects_within (writes : Writes quiet (r.move.switched f) r.move.final final) :
    ∀ e ∈ r.move.moveEffects final, e.WritesWithin dataStart (r.final.root.logStart + logHeaderSize) := by
  have start := r.final.dataStart_le_logEnd
  rw [← r.final_logStart] at start
  intro e member
  rcases List.mem_append.mp member with base | marker
  · exact (writes.within e base).mono r.front.ge (Nat.le_add_right _ _)
  · cases List.mem_singleton.mp marker
    exact ⟨start, by rw [compactMarker_length]; rfl⟩

variable (image : c.Image f []) (next : r.staging.root.generation = c.root.generation + 1)
variable (last : r.final.root.generation = r.staging.root.generation + 1) (room : r.staging.logEnd ≤ limit)

/-! ### To the staging Base -/

include image room

/-- Anything behind the marker, up to the end of the staging Base. -/
theorem stored_marked {g : File}
    (agrees : File.AgreesOutside r.staging.root.baseOffset r.staging.logEnd (r.move.marked f) g) :
    Stored C limit [c.map] g := by
  refine stored_one ?_ ((r.marked_marked image).agrees agrees r.behind r.word).recovers
  have len := agrees.len_le
  rw [r.marked_len image] at len
  have := r.behind
  have := r.staging_end
  omega

/-- The marker, as far as it came. -/
theorem stored_marking (n : Nat) : Stored C limit [c.map] (f.write c.logEnd (compactMarker.take n)) := by
  have torn := image.mark (List.take_prefix n compactMarker) r.marker_word
  refine stored_one ?_ torn.recovers
  have short := List.length_take_le' n compactMarker
  rw [compactMarker_length] at short
  have := r.behind
  have := r.staging_end
  have len := torn.len
  omega

theorem stage_survives (writes : Writes quiet (r.move.marked f) r.move.staging staging) :
    Effect.Survives (Stored C limit [c.map]) f (r.move.uptoStaged staging) := by
  have within : ∀ e ∈ staging, e.WritesWithin r.staging.root.baseOffset r.staging.logEnd := by
    rw [r.staging.logEnd_of_fresh r.stagingFresh]
    exact writes.within
  refine Effect.survives_cons (r.stored_marking image room) (Effect.Survives.append ?_ ?_)
  · exact Effect.survives_within within fun g agrees => r.stored_marked image room agrees
  · have staged := r.stored_marked image room r.staged_agrees
    show Effect.Survives _ (Effect.applyAll (r.move.marked f) staging) _
    rw [writes.whole]
    exact Effect.survives_sync staged (Effect.survives_nil staged)

/-! ### The switch and the move -/

include next

/-- Anything between the pages and the staging Base. -/
theorem stored_switched {g : File}
    (agrees : File.AgreesOutside dataStart r.staging.root.baseOffset (r.move.switched f) g) :
    Stored C limit [c.map] g := by
  have image' := r.switched_agrees image next agrees
  exact stored_one (image'.len.le.trans room) (r.stagingMap ▸ image'.recovers)

/-- The first publication, as far as it came. -/
theorem stored_switching
    (honest : HonestTear (pageAt f r.staging.root.generation) r.staging.root.encodePage) (n : Nat) :
    Stored C limit [c.map] ((r.move.staged f).write (Superblock.pageOffset r.staging.root.generation)
      (r.staging.root.encodePage.take n)) := by
  have marked := r.staged_marked image
  refine stored_page _ _ n marked.rooted.long ((r.staged_len image).le.trans room) fun g agrees same => ?_
  rw [← r.staged_page] at honest
  have torn := marked.rooted.torn next honest n
  rw [← same] at torn
  rcases torn with old | new
  · exact (marked.page agrees old).recovers
  · exact r.stagingMap ▸ (r.staging_image image agrees new).recovers

theorem switch_survives
    (honest : HonestTear (pageAt f r.staging.root.generation) r.staging.root.encodePage) :
    Effect.Survives (Stored C limit [c.map]) (r.move.staged f) (r.move.switchEffects ++ [.sync]) :=
  Effect.survives_write_sync (r.stored_switching image next room honest)

/-- Writes of the relocation, whichever were made. -/
theorem relocation_survives
    (within : ∀ e ∈ effects, e.WritesWithin dataStart (r.final.root.logStart + logHeaderSize)) :
    Effect.Survives (Stored C limit [c.map]) (r.move.switched f) effects := by
  refine Effect.survives_within within fun g agrees => r.stored_switched image next room ?_
  rw [r.final_logStart] at agrees
  exact agrees.mono le_rfl r.gap

theorem move_survives (writes : Writes quiet (r.move.switched f) r.move.final final) :
    Effect.Survives (Stored C limit [c.map]) (r.move.switched f) (r.move.moveEffects final ++ [.sync]) := by
  refine r.relocation_survives image next room (List.forall_mem_append.mpr ⟨?_, ?_⟩)
  · exact r.moveEffects_within writes
  · exact List.forall_mem_singleton.mpr trivial

/-! ### The last publications and the cut -/

include last

/-- The second publication, as far as it came. -/
theorem stored_settling
    (honest : HonestTear (pageAt f c.root.generation) r.final.root.encodePage) (n : Nat) :
    Stored C limit [c.map] ((r.move.fenced f).write (Superblock.pageOffset r.final.root.generation)
      (r.final.root.encodePage.take n)) := by
  have fenced := r.fenced_image image next
  refine stored_page _ _ n fenced.rooted.long (fenced.len.le.trans room) fun g agrees same => ?_
  rw [← r.switched_other next, ← r.fenced_page, ← last] at honest
  have torn := fenced.rooted.torn last honest n
  rw [← same] at torn
  rcases torn with old | new
  · exact r.stagingMap ▸ (fenced.page agrees old).recovers
  · exact r.finalMap ▸ (r.final_marked image next agrees new).recovers

omit last in
theorem settled_len : (r.move.settled f).len ≤ limit := by
  have fenced := r.fenced_image image next
  have len := Contents.page_len fenced.rooted.long (page_agrees (r.move.fenced f)
    r.final.root.generation r.final.root.encodePage_length.le)
  exact len.le.trans (fenced.len.le.trans room)

/-- The redundant copy, as far as it came. -/
theorem stored_doubling (honest : HonestTear r.staging.root.encodePage r.final.root.encodePage) (n : Nat) :
    Stored C limit [c.map] ((r.move.settled f).write
      (Superblock.pageOffset (r.final.root.generation + 1)) (r.final.root.encodePage.take n)) := by
  have settled := r.settled_marked next last image
  refine stored_page _ _ n settled.rooted.long (r.settled_len image next room)
    fun g agrees same => ?_
  have torn := settled.rooted.copyTorn ((r.settled_other last).symm ▸ honest) n
  rw [← same] at torn
  exact r.finalMap ▸ (settled.page agrees torn).recovers

theorem stored_doubled : Stored C limit [c.map] (r.move.doubled f) := by
  refine stored_one ?_ (r.finalMap ▸ (r.doubled_marked next last image).recovers)
  have settled := r.settled_marked next last image
  rw [Contents.page_len settled.rooted.long r.doubled_agrees]
  exact r.settled_len image next room

theorem stored_cut : Stored C limit [c.map] (r.move.cut f) := by
  have cut := r.cut_image next last image
  refine stored_one ?_ (r.finalMap ▸ cut.recovers)
  exact cut.len.le.trans ((r.final_below.trans r.staging_end).trans room)

theorem settle_survives (honest : HonestTear (pageAt f c.root.generation) r.final.root.encodePage) :
    Effect.Survives (Stored C limit [c.map]) (r.move.fenced f) (r.move.settleEffects ++ [.sync]) :=
  Effect.survives_write_sync (r.stored_settling image next last room honest)

theorem double_survives (honest : HonestTear r.staging.root.encodePage r.final.root.encodePage) :
    Effect.Survives (Stored C limit [c.map]) (r.move.settled f) (r.move.doubleEffects ++ [.sync]) :=
  Effect.survives_write_sync (r.stored_doubling image next last room honest)

/-- The cut, as far as it came. -/
theorem cut_survives
    (part : effects = [] ∨ effects = r.move.cutEffects ∨ effects = r.move.cutEffects ++ [.sync]) :
    Effect.Survives (Stored C limit [c.map]) (r.move.doubled f) effects := by
  have doubled := r.stored_doubled image next last room
  have cut := r.stored_cut image next last room
  rcases part with rfl | rfl | rfl
  · exact Effect.survives_nil doubled
  · exact Effect.survives_cons (fun _ => doubled) (Effect.survives_nil cut)
  · exact Effect.survives_cons (fun _ => doubled) (Effect.survives_sync cut (Effect.survives_nil cut))

end Crash

end Rewrite

end Lkv
