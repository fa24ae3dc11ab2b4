/-
# Lkv.System.Image — files that hold a database

`Contents` is what a database file is meant to hold: a root, the Base it describes
and the batches of the log behind it; `Contents.map` is the map a client sees.
`Contents.Image c f tail` says that `f` holds `c` and then a dead tail, which the next
open discards.  A file recovers to `m` when it is the image of contents with that map.

The two root pages are handled apart.  `Rooted f sb`: the page of `sb` holds it and
the other page holds no rival, whatever the length of the file.  Publishing a
successor moves the root (`Rooted.published`), and a publication that is cut short
leaves the old root or the new one, provided the torn page is not taken for a third
(`HonestTear`).
-/
import Lkv.Database.Compaction

namespace Lkv
open Lkv.Theory Dictionary

set_option autoImplicit false

/-! ## The root pages -/

/-- The page of a generation. -/
def pageAt (f : File) (generation : Nat) : Bytes :=
  f.slice (Superblock.pageOffset generation) superblockSize

/-- A page that never wins against `sb`. -/
def Yielding (sb : Superblock) (page : Bytes) : Prop :=
  ∀ fileLen, (classifyPage fileLen page).NotAbove sb.generation ∧
    ∀ other, classifyPage fileLen page = .root other → other.generation = sb.generation → other = sb

structure Rooted (f : File) (sb : Superblock) : Prop where
  long : dataStart ≤ f.len
  own : sb.OnPage (pageAt f sb.generation)
  other : Yielding sb (pageAt f (sb.generation + 1))

/-- A write of `new` over `old` that stopped anywhere: unless the header is still the
old one or already the new one, it does not pass its checksum. -/
def HonestTear (old new : Bytes) : Prop :=
  ∀ n, window (new.take n ++ old.drop n) 0 headerSize ≠ window old 0 headerSize →
    window (new.take n ++ old.drop n) 0 headerSize ≠ window new 0 headerSize →
    readEnvelope (new.take n ++ old.drop n) = none

/-! ### Tears that are caught -/

section Tears

variable {page : Bytes} {old new : Superblock}

theorem readEnvelope_caught (size : leNat (window page 12 4) = headerSize)
    (caught : leNat (window page 68 4) ≠ (crc32c (window page 0 68)).toNat) :
    readEnvelope page = none := by
  unfold readEnvelope
  split
  · rfl
  · dsimp only
    rw [size, if_neg (by decide)]
    exact if_pos caught

/-- The header of a page that was torn inside it. -/
theorem torn_header {page page' : Bytes} {n : Nat} (le : n ≤ headerSize) (long : headerSize ≤ page'.length) :
    window (page'.take n ++ page.drop n) 0 headerSize =
      (window page' 0 headerSize).take n ++ (window page 0 headerSize).drop n := by
  have taken : (page'.take n).length = n := List.length_take_of_le (le.trans long)
  simp only [window, List.drop_zero]
  rw [List.take_append, taken, List.take_take, List.take_take, List.drop_take, Nat.min_comm]

theorem torn_window {n start count : Nat} (inside : start + count ≤ n) (le : n ≤ headerSize) :
    window (new.encodePage.take n ++ page.drop n) start count = window new.header start count := by
  have length : (new.encodePage.take n).length = n :=
    List.length_take_of_le (le.trans (by rw [new.encodePage_length]; decide))
  rw [window_append_left _ _ _ _ (by omega), ← new.onPage_encodePage.window (inside.trans le)]
  refine window_congr fun i _ below => ?_
  rw [List.getElem?_take_of_lt (by omega)]

/-- A tear within the checksum is caught; this leaves those within the fields. -/
theorem honestTear_of_fields (long : headerSize ≤ page.length) (caught : ∀ n ≤ 68,
      new.fields.take n ++ (window page 0 headerSize).drop n ≠ window page 0 headerSize →
      readEnvelope (new.encodePage.take n ++ page.drop n) = none) :
    HonestTear page new.encodePage := by
  intro n untouched unfinished
  have long' : headerSize ≤ new.encodePage.length := by
    rw [new.encodePage_length]
    decide
  have header : window new.encodePage 0 headerSize = new.header := new.onPage_encodePage
  obtain ⟨-, -, size, fields, -⟩ := new.header_words
  rw [header] at unfinished
  by_cases within : n ≤ 68
  · refine caught n within fun same => untouched ?_
    rw [torn_header (within.trans (by decide)) long', header]
    refine Eq.trans (congrArg (· ++ _) ?_) same
    rw [Superblock.header, List.take_append_of_le_length (by rw [new.fields_length]; exact within)]
  by_cases inside : n ≤ headerSize
  · refine readEnvelope_caught ?_ fun same => unfinished ?_
    · rw [torn_window (by omega) inside, size]
      decide
    have stored : (window (new.encodePage.take n ++ page.drop n) 68 4).length = 4 := by
      refine window_length _ _ _ ?_
      rw [List.length_append, List.length_take_of_le (inside.trans long'), List.length_drop]
      unfold headerSize at inside long
      omega
    have covered : window (new.encodePage.take n ++ page.drop n) 0 68 = new.fields := by
      rw [torn_window (by omega) inside, fields]
    rw [covered] at same
    have bytes := leBytes_leNat (window (new.encodePage.take n ++ page.drop n) 68 4)
    rw [stored, same] at bytes
    rw [show headerSize = 68 + 4 from rfl, window_add, Nat.zero_add, ← bytes, covered]
    rfl
  · refine absurd ?_ unfinished
    rw [window_append_left _ _ _ _ ?_, ← header]
    · refine window_congr fun i _ below => ?_
      rw [List.getElem?_take_of_lt (by omega)]
    · rw [List.length_take]
      omega

theorem torn_window_behind {n start count : Nat} (behind : n ≤ start) (le : n ≤ headerSize) :
    window (new.encodePage.take n ++ page.drop n) start count = window page start count := by
  have length : (new.encodePage.take n).length = n :=
    List.length_take_of_le (le.trans (by rw [new.encodePage_length]; decide))
  rw [window_append_right _ _ _ _ (by omega), length, window, List.drop_drop,
    Nat.add_sub_cancel' behind, window]

/-- The fields of a page that was torn inside them. -/
theorem torn_fields {n : Nat} (within : n ≤ 68) :
    window (new.encodePage.take n ++ page.drop n) 0 68 = new.fields.take n ++ window page n (68 - n) := by
  have le : n ≤ headerSize := within.trans (by decide)
  obtain ⟨-, -, -, fields, -⟩ := new.header_words
  have front : window new.header 0 n = new.fields.take n := by
    rw [← fields, window, window, List.drop_zero, List.take_take, Nat.min_eq_left within]
  have split := window_add (new.encodePage.take n ++ page.drop n) 0 n (68 - n)
  rw [Nat.add_sub_cancel' within, Nat.zero_add, torn_window_behind le_rfl le] at split
  rw [split, torn_window (Nat.zero_add n).le le, front]

/-- A root over a root: a tear is caught if the checksums never meet again once the fields
differ. -/
theorem honestTear_of_apart (long : headerSize ≤ page.length) (on : old.OnPage page)
    (front : new.fields.take 16 = old.fields.take 16)
    (apart : Crc.Apart (~~~crc32c (new.fields.take 16)) (~~~crc32c (old.fields.take 16))
      (new.fields.drop 16) (old.fields.drop 16)) :
    HonestTear page new.encodePage := by
  refine honestTear_of_fields long fun n within differ => ?_
  obtain ⟨-, -, -, fields, checksum⟩ := old.header_words
  obtain ⟨-, -, size, -, -⟩ := new.header_words
  have le : n ≤ headerSize := within.trans (by decide)
  have length : ∀ sb : Superblock, sb.fields.length = 68 := Superblock.fields_length
  by_cases early : n ≤ 16
  · refine absurd ?_ differ
    have same := congrArg (List.take n) front
    rw [List.take_take, List.take_take, Nat.min_eq_left early] at same
    rw [same, on, Superblock.header, List.drop_append_of_le_length (by rw [length]; exact within),
      ← List.append_assoc, List.take_append_drop]
  refine readEnvelope_caught ?_ fun same => ?_
  · rw [torn_window (by omega) le, size]
    decide
  have rest : window page n (68 - n) = old.fields.drop n := by
    rw [on.window (by unfold headerSize; omega), ← fields, window, window, List.drop_zero,
      List.drop_take]
  rw [torn_window_behind within le, on.window (by decide), checksum, leNat_leBytes _ _ (crc32c_lt _),
    torn_fields within, rest] at same
  have met : crc32c (old.fields.take n) = crc32c (new.fields.take n) := by
    refine crc32c_append_cancel (old.fields.drop n) ?_
    rw [List.take_append_drop]
    exact BitVec.eq_of_toNat_eq same
  refine apart.take (n := n - 16) (by omega) (by rw [List.length_drop, length]; omega)
    (by rw [List.length_drop, length]; omega) ?_
  have split : ∀ sb : Superblock, ~~~crc32c (sb.fields.take n) =
      ((sb.fields.drop 16).take (n - 16)).foldl Crc.byteStep (~~~crc32c (sb.fields.take 16)) := by
    intro sb
    rw [← not_crc32c_append, ← List.take_add, Nat.add_sub_cancel' (by omega)]
  rw [← split new, ← split old, met]

/-- A root over a page that was never written. -/
theorem honestTear_of_blank (blank : page = List.replicate superblockSize 0)
    (never : Crc.NeverZero (~~~crc32c (new.fields.take 13)) (new.fields.drop 13)) :
    HonestTear page new.encodePage := by
  have zeros : ∀ {start count : Nat}, start + count ≤ headerSize →
      window page start count = List.replicate count 0 := by
    intro start count inside
    rw [blank, window, List.drop_replicate, List.take_replicate, Nat.min_eq_left]
    unfold headerSize at inside
    unfold superblockSize
    omega
  refine honestTear_of_fields (by rw [blank, List.length_replicate]; decide) fun n within differ => ?_
  have le : n ≤ headerSize := within.trans (by decide)
  obtain ⟨-, -, size, -, -⟩ := new.header_words
  by_cases early : n ≤ 12
  · -- the header size is not there yet
    have none : leNat (window (new.encodePage.take n ++ page.drop n) 12 4) = 0 := by
      rw [torn_window_behind early le, zeros (by decide)]
      decide
    unfold readEnvelope
    rw [none]
    split
    · rfl
    · exact if_pos (by decide)
  refine readEnvelope_caught ?_ fun same => ?_
  · -- all but the first of its bytes are zero
    have first : window (new.encodePage.take n ++ page.drop n) 12 1 = [72] := by
      rw [torn_window (by omega) le]
      have := congrArg (window · 0 1) size
      rwa [window_window _ _ _ _ _ (by decide)] at this
    have others : window (new.encodePage.take n ++ page.drop n) 13 3 = [0, 0, 0] := by
      have tail : ∀ k ≤ 3, window new.header 13 k = List.replicate k 0 := by
        intro k le
        have part := congrArg (window · 1 k) size
        rw [window_window _ _ _ _ _ (by omega)] at part
        rw [part]
        exact (by decide : ∀ k ≤ 3, window (leBytes 4 headerSize) 1 k = List.replicate k 0) k le
      by_cases whole : 16 ≤ n
      · rw [torn_window whole le, tail 3 le_rfl]
        rfl
      · have front : window (new.encodePage.take n ++ page.drop n) 13 (n - 13) =
            List.replicate (n - 13) 0 := by
          rw [torn_window (by omega) le, tail _ (by omega)]
        rw [show 3 = n - 13 + (16 - n) by omega, window_add, front, torn_window_behind (by omega) le,
          zeros (by unfold headerSize; omega), List.replicate_append_replicate,
          show n - 13 + (16 - n) = 3 by omega]
        rfl
    rw [show (4 : Nat) = 1 + 3 from rfl, window_add, first, others]
    decide
  rw [torn_window_behind within le, zeros (by decide), torn_fields within, zeros (by unfold headerSize; omega)] at same
  have length : (new.fields.drop 13).length = 55 := by rw [List.length_drop, new.fields_length]
  refine never.take (n := n - 13) (by rw [length]; omega) ?_
  have parts : new.fields.take n = new.fields.take 13 ++ (new.fields.drop 13).take (n - 13) := by
    rw [← List.take_add, Nat.add_sub_cancel' (by omega)]
  have zero : crc32c (new.fields.take n ++ List.replicate (68 - n) 0) = 0 :=
    BitVec.eq_of_toNat_eq same.symm
  rw [← not_crc32c_append, length, show 55 - (n - 13) = 68 - n by omega, ← List.append_assoc, ← parts, zero]
  decide

end Tears

section Pages

variable {f g : File} {sb old new : Superblock} {page : Bytes} {fileLen generation : Nat}

theorem Superblock.OnPage.classify_cases (on : old.OnPage page) (fileLen : Nat) :
    classifyPage fileLen page = .root old ∨ classifyPage fileLen page = .skipped := by
  unfold classifyPage
  rw [on.envelope, on.decode]
  by_cases fits : old.Fits fileLen
  · exact .inl (by simp [fits])
  · exact .inr (by simp [fits])

theorem Superblock.OnPage.yielding_of_lt (on : old.OnPage page)
    (lower : old.generation < sb.generation) : Yielding sb page := by
  intro fileLen
  rcases on.classify_cases fileLen with root | skipped
  · rw [root]
    refine ⟨lower.le, ?_⟩
    rintro _ ⟨⟩ same
    omega
  · rw [skipped]
    exact ⟨trivial, nofun⟩

theorem Superblock.OnPage.yielding_self (on : sb.OnPage page) : Yielding sb page := by
  intro fileLen
  rcases on.classify_cases fileLen with root | skipped
  · rw [root]
    refine ⟨le_rfl, ?_⟩
    rintro _ ⟨⟩ _
    rfl
  · rw [skipped]
    exact ⟨trivial, nofun⟩

theorem yielding_invalid (sb : Superblock) (invalid : readEnvelope page = none) :
    Yielding sb page := by
  intro fileLen
  unfold classifyPage
  rw [invalid]
  exact ⟨trivial, nofun⟩

@[simp] theorem pageAt_length (f : File) (generation : Nat) :
    (pageAt f generation).length = superblockSize :=
  File.slice_length f _ _

theorem pageAt_add_two (f : File) (generation : Nat) :
    pageAt f (generation + 1 + 1) = pageAt f generation := by
  unfold pageAt
  rcases pageOffset_cases generation with ⟨one, two⟩ | ⟨one, two⟩ <;>
    rcases pageOffset_cases (generation + 1) with ⟨three, four⟩ | ⟨three, four⟩ <;>
    simp_all [superblockSize]

theorem pageKind_pageAt (long : dataStart ≤ f.len) (fileLen generation : Nat) :
    pageKind f fileLen (Superblock.pageOffset generation) =
      classifyPage fileLen (pageAt f generation) := by
  rw [pageKind, if_pos (le_trans (pageOffset_end_le generation) long), pageAt]

/-- A rooted file whose ranges fit is read as such. -/
theorem Rooted.select (rooted : Rooted f sb) (fits : sb.Fits fileLen) :
    selectRoot f fileLen = .ok sb := by
  refine @selectRoot_of_page f sb fileLen sb.generation ?_ ?_ ?_ <;>
    rw [pageKind_pageAt rooted.long]
  · exact rooted.own.classify fits
  · exact (rooted.other fileLen).1
  · exact (rooted.other fileLen).2

theorem pageAt_congr (same : ∀ i < dataStart, g.byte i = f.byte i) (generation : Nat) :
    pageAt g generation = pageAt f generation := by
  have below := pageOffset_end_le generation
  exact File.slice_congr fun i _ inside => same i (by omega)

theorem Rooted.congr (rooted : Rooted f sb) (same : ∀ i < dataStart, g.byte i = f.byte i)
    (long : dataStart ≤ g.len) : Rooted g sb where
  long := long
  own := by
    rw [pageAt_congr same]
    exact rooted.own
  other := by
    rw [pageAt_congr same]
    exact rooted.other

/-- Writing behind the pages leaves the root alone. -/
theorem Rooted.agrees {lo hi : Nat} (rooted : Rooted f sb) (agrees : File.AgreesOutside lo hi f g)
    (behind : dataStart ≤ lo) : Rooted g sb :=
  rooted.congr (fun i inside => agrees.byte i (.inl (by omega))) (rooted.long.trans agrees.le_len)

theorem pageAt_write_own (f : File) (generation : Nat) (small : page.length ≤ superblockSize) :
    pageAt (f.write (Superblock.pageOffset generation) page) generation =
      page ++ (pageAt f generation).drop page.length :=
  File.slice_write_front f _ _ page small

theorem pageAt_write_other (f : File) (generation : Nat) (small : page.length ≤ superblockSize) :
    pageAt (f.write (Superblock.pageOffset generation) page) (generation + 1) =
      pageAt f (generation + 1) := by
  have apart := pageOffset_cases generation
  refine File.slice_congr fun i above below => File.write_byte_of_outside f ?_
  rcases apart with ⟨one, two⟩ | ⟨one, two⟩ <;> rw [one] <;> rw [two] at above below <;> omega

theorem write_pageOffset_len (long : dataStart ≤ f.len) (small : page.length ≤ superblockSize) :
    (f.write (Superblock.pageOffset generation) page).len = f.len := by
  have below := pageOffset_end_le generation
  have le := File.le_write_len f (Superblock.pageOffset generation) page
  have := File.write_len_le f (Superblock.pageOffset generation) page
  omega

theorem pageAt_encodePage (f : File) (sb : Superblock) (generation : Nat) :
    pageAt (f.write (Superblock.pageOffset generation) sb.encodePage) generation =
      sb.encodePage := by
  rw [pageAt_write_own f generation (sb.encodePage_length.le)]
  simp

theorem rooted_both (long : dataStart ≤ f.len) (own : sb.OnPage (pageAt f sb.generation))
    (copy : sb.OnPage (pageAt f (sb.generation + 1))) : Rooted f sb :=
  ⟨long, own, copy.yielding_self⟩

/-- The successor of a root takes over as soon as its header is on its page. -/
theorem Rooted.succeed (rooted : Rooted f sb) (next : new.generation = sb.generation + 1)
    (small : page.length ≤ superblockSize)
    (on : new.OnPage (page ++ (pageAt f new.generation).drop page.length)) :
    Rooted (f.write (Superblock.pageOffset new.generation) page) new where
  long := by
    rw [write_pageOffset_len rooted.long small]
    exact rooted.long
  own := by
    rw [pageAt_write_own f _ small]
    exact on
  other := by
    rw [pageAt_write_other f _ small, next, pageAt_add_two]
    exact rooted.own.yielding_of_lt (by omega)

theorem Rooted.published (rooted : Rooted f sb) (next : new.generation = sb.generation + 1) :
    Rooted (f.write (Superblock.pageOffset new.generation) new.encodePage) new := by
  refine rooted.succeed next new.encodePage_length.le ?_
  rw [new.encodePage_length, List.drop_eq_nil_of_le (pageAt_length f _).le, List.append_nil]
  exact new.onPage_encodePage

/-- A page over the other page, as long as it yields. -/
theorem Rooted.beside (rooted : Rooted f sb) (small : page.length ≤ superblockSize)
    (yields : Yielding sb (page ++ (pageAt f (sb.generation + 1)).drop page.length)) :
    Rooted (f.write (Superblock.pageOffset (sb.generation + 1)) page) sb where
  long := by
    rw [write_pageOffset_len rooted.long small]
    exact rooted.long
  own := by
    have other := @pageAt_write_other page f (sb.generation + 1) small
    rw [pageAt_add_two, pageAt_add_two] at other
    rw [other]
    exact rooted.own
  other := by
    rw [pageAt_write_own f _ small]
    exact yields

/-- A front part of a write over a page, as the page shows it. -/
theorem take_append_drop_take (old new : Bytes) (n : Nat) (size : old.length = new.length) :
    new.take n ++ old.drop (new.take n).length = new.take n ++ old.drop n := by
  rw [List.length_take]
  rcases Nat.le_total n new.length with inside | past
  · rw [Nat.min_eq_left inside]
  · rw [Nat.min_eq_right past, List.drop_eq_nil_of_le (by omega),
      List.drop_eq_nil_of_le (show old.length ≤ n by omega)]

/-- What a torn page is: the old one, one with the new header, or an invalid one. -/
theorem HonestTear.cases {old new : Bytes} (honest : HonestTear old new)
    (size : new.length = superblockSize) (n : Nat) :
    new.take n ++ old.drop n = old ∨
      window (new.take n ++ old.drop n) 0 headerSize = window new 0 headerSize ∨
      readEnvelope (new.take n ++ old.drop n) = none := by
  by_cases done : headerSize ≤ n
  · refine .inr (.inl ?_)
    have fits : headerSize ≤ (new.take n).length := by
      rw [List.length_take, size]
      exact le_min done (by decide)
    rw [window_append_left _ _ _ _ (by omega), window, window, List.drop_zero, List.drop_zero,
      List.take_take, Nat.min_eq_left done]
  · by_cases still : window (new.take n ++ old.drop n) 0 headerSize = window old 0 headerSize
    · left
      simp only [window, List.drop_zero] at still
      rw [← List.take_append_drop headerSize (new.take n ++ old.drop n), still]
      have behind : (new.take n ++ old.drop n).drop headerSize = old.drop headerSize := by
        have front : (new.take n).length = n := by
          rw [List.length_take, size, Nat.min_eq_left (by
            have : headerSize ≤ superblockSize := by decide
            omega)]
        rw [List.drop_append, front, List.drop_eq_nil_of_le (by omega), List.drop_drop,
          List.nil_append, Nat.add_sub_of_le (by omega)]
      rw [behind, List.take_append_drop]
    · by_cases already : window (new.take n ++ old.drop n) 0 headerSize = window new 0 headerSize
      · exact .inr (.inl already)
      · exact .inr (.inr (honest n still already))

/-- A publication that was cut short leaves the old root or the new one. -/
theorem Rooted.torn (rooted : Rooted f sb) (next : new.generation = sb.generation + 1)
    (honest : HonestTear (pageAt f new.generation) new.encodePage) (n : Nat) :
    Rooted (f.write (Superblock.pageOffset new.generation) (new.encodePage.take n)) sb ∨
      Rooted (f.write (Superblock.pageOffset new.generation) (new.encodePage.take n)) new := by
  have small : (new.encodePage.take n).length ≤ superblockSize :=
    (List.length_take_le' _ _).trans new.encodePage_length.le
  have tear := take_append_drop_take (pageAt f new.generation) new.encodePage n
    (by rw [pageAt_length, new.encodePage_length])
  rcases honest.cases new.encodePage_length n with same | begun | invalid
  · left
    rw [next]
    refine rooted.beside small ?_
    rw [← next, tear, same, next]
    exact rooted.other
  · right
    refine rooted.succeed next small ?_
    rw [tear]
    exact begun.trans new.onPage_encodePage
  · left
    rw [next]
    refine rooted.beside small ?_
    rw [← next, tear]
    exact yielding_invalid sb invalid

/-- The redundant copy never changes the root, also when it is cut short. -/
theorem Rooted.copyTorn (rooted : Rooted f sb)
    (honest : HonestTear (pageAt f (sb.generation + 1)) sb.encodePage) (n : Nat) :
    Rooted (f.write (Superblock.pageOffset (sb.generation + 1)) (sb.encodePage.take n)) sb := by
  have small : (sb.encodePage.take n).length ≤ superblockSize :=
    (List.length_take_le' _ _).trans sb.encodePage_length.le
  have tear := take_append_drop_take (pageAt f (sb.generation + 1)) sb.encodePage n
    (by rw [pageAt_length, sb.encodePage_length])
  refine rooted.beside small ?_
  rw [tear]
  rcases honest.cases sb.encodePage_length n with same | begun | invalid
  · rw [same]
    exact rooted.other
  · exact Superblock.OnPage.yielding_self (begun.trans sb.onPage_encodePage)
  · exact yielding_invalid sb invalid

end Pages

/-! ## Contents -/

/-- What a database file is meant to hold. -/
structure Contents (C : Crates) where
  root : Superblock
  entries : List Entry
  slots : Nat
  data : Bytes
  batches : List Batch
  isBase : IsBase C root.baseOffset entries slots data
  distinct : Distinct entries
  describes : Describes root root.baseOffset slots entries data
  size : root.baseSize = (segmentBytes data).length
  logStart : root.logStart = root.baseOffset + root.baseSize
  above : dataStart ≤ root.baseOffset

namespace Contents

variable {C : Crates}

def log (c : Contents C) : Bytes := logBytes c.batches

def logEnd (c : Contents C) : Nat := c.root.logStart + c.log.length

/-- The map a client sees: the Base, overridden by the log. -/
def map (c : Contents C) : Bytes → Option Bytes :=
  override (latest c.entries) (logOps c.batches)

/-- The contents with one more batch. -/
def commit (c : Contents C) (batch : Batch) : Contents C :=
  { c with batches := c.batches ++ [batch] }

/-- The Base and the log are in the file. -/
structure Held (c : Contents C) (f : File) : Prop where
  base : f.Holds c.root.baseOffset (segmentBytes c.data)
  log : f.Holds c.root.logStart c.log

/-- A file that holds the contents and a dead tail. -/
structure Image (c : Contents C) (f : File) (tail : Bytes) : Prop where
  rooted : Rooted f c.root
  held : c.Held f
  ends : f.Holds c.logEnd tail
  len : f.len = c.logEnd + tail.length
  dead : Dead c.logEnd tail
  word : f.len < 2 ^ 64

/-- The log ends in a compaction marker, whatever comes after it. -/
structure Marked (c : Contents C) (f : File) : Prop where
  rooted : Rooted f c.root
  held : c.Held f
  marker : f.Holds c.logEnd compactMarker
  long : c.logEnd + logHeaderSize ≤ f.len
  word : f.len < 2 ^ 64

end Contents

/-- A file that the next open reads as the map `m`. -/
def Recovers (C : Crates) (m : Bytes → Option Bytes) (f : File) : Prop :=
  ∃ (c : Contents C) (tail : Bytes), c.Image f tail ∧ c.map = m

/-- A file within the limit that the next open reads as one of these maps. -/
def Stored (C : Crates) (limit : Nat) (maps : List (Bytes → Option Bytes)) (f : File) : Prop :=
  f.len ≤ limit ∧ ∃ m ∈ maps, Recovers C m f

namespace Contents

variable {C : Crates} {c : Contents C} {f g : File} {tail : Bytes} {lo hi : Nat}

theorem commit_map (c : Contents C) (batch : Batch) :
    (c.commit batch).map = override c.map batch.ops := by
  show override (latest c.entries) (logOps (c.batches ++ [batch])) = _
  rw [logOps_append, override_append]
  rfl

theorem commit_log (c : Contents C) (batch : Batch) :
    (c.commit batch).log = c.log ++ batch.bytes := by
  show logBytes (c.batches ++ [batch]) = _
  rw [logBytes_append, logBytes_singleton]
  rfl

theorem commit_logEnd (c : Contents C) (batch : Batch) :
    (c.commit batch).logEnd = c.logEnd + batch.bytes.length := by
  have root : (c.commit batch).root = c.root := rfl
  rw [logEnd, commit_log, root, List.length_append, logEnd, Nat.add_assoc]

theorem base_end (c : Contents C) :
    c.root.baseOffset + (segmentBytes c.data).length = c.root.logStart := by
  rw [c.logStart, c.size]

theorem header_le (c : Contents C) : baseHeader ≤ c.root.baseSize := by
  rw [c.size, segmentBytes_length, c.isBase.length]
  omega

theorem dataStart_le_logEnd (c : Contents C) : dataStart ≤ c.logEnd := by
  have := c.above
  rw [logEnd, c.logStart]
  omega

theorem fits (c : Contents C) {len : Nat} (room : c.logEnd ≤ len) : c.root.Fits len := by
  have := c.above
  have := c.header_le
  have := c.logStart
  unfold logEnd at room
  unfold Superblock.Fits
  omega

theorem Held.agrees (held : c.Held f) (agrees : File.AgreesOutside lo hi f g)
    (apart : c.logEnd ≤ lo ∨ hi ≤ c.root.baseOffset) : c.Held g where
  base := by
    refine agrees.holds held.base ?_
    rw [c.base_end]
    unfold logEnd at apart
    omega
  log := by
    refine agrees.holds held.log ?_
    have := c.logStart
    unfold logEnd at apart
    omega

theorem Held.setLen {n : Nat} (held : c.Held f) (room : c.logEnd ≤ n) : c.Held (f.setLen n) where
  base := held.base.setLen (by rw [c.base_end]; exact le_trans (Nat.le_add_right _ _) room)
  log := held.log.setLen room

/-- Appending behind the log does not touch what is held. -/
theorem Held.write_end (held : c.Held f) (bs : Bytes) : c.Held (f.write c.logEnd bs) :=
  held.agrees (File.AgreesOutside.write f le_rfl le_rfl) (.inl le_rfl)

theorem Image.long (image : c.Image f tail) : c.logEnd ≤ f.len := by
  rw [image.len]
  exact Nat.le_add_right _ _

theorem Image.fits (image : c.Image f tail) : c.root.Fits f.len := c.fits image.long

theorem Image.recovers (image : c.Image f tail) : Recovers C c.map f := ⟨c, tail, image, rfl⟩

/-- Writing between the pages and the Base changes nothing. -/
theorem Image.agrees (image : c.Image f tail) (agrees : File.AgreesOutside lo hi f g)
    (behind : dataStart ≤ lo) (before : hi ≤ c.root.baseOffset) : c.Image g tail := by
  have long := image.long
  have start : c.root.baseOffset ≤ c.logEnd := by
    rw [logEnd, c.logStart]
    omega
  have len : g.len = f.len := by
    have := agrees.le_len
    have := agrees.len_le
    omega
  exact ⟨image.rooted.agrees agrees behind, image.held.agrees agrees (.inr before),
    agrees.holds image.ends (.inr (before.trans start)), len.trans image.len, image.dead,
    len ▸ image.word⟩

/-- Cutting off the dead tail leaves the contents alone. -/
theorem Image.truncate (image : c.Image f tail) : c.Image (f.setLen c.logEnd) [] where
  rooted := by
    have := c.dataStart_le_logEnd
    exact image.rooted.congr (fun i inside => File.setLen_byte f (by omega)) this
  held := image.held.setLen le_rfl
  ends := rfl
  len := rfl
  dead := .short (by decide)
  word := lt_of_le_of_lt image.long image.word

/-- Anything dead may be appended to a clean image. -/
theorem Image.append (image : c.Image f []) (dead : Dead c.logEnd tail)
    (word : c.logEnd + tail.length < 2 ^ 64) : c.Image (f.write c.logEnd tail) tail := by
  have len : f.len = c.logEnd := image.len
  have long : (f.write c.logEnd tail).len = c.logEnd + tail.length := by
    by_cases nothing : tail = []
    · subst nothing
      rw [File.write_nil, len]
      rfl
    · rw [File.write_len f _ nothing, len]
      omega
  exact ⟨image.rooted.agrees (File.AgreesOutside.write f le_rfl le_rfl) c.dataStart_le_logEnd,
    image.held.write_end tail, File.holds_write f _ _, long, dead, long ▸ word⟩

/-- A whole batch at the end of the log is part of the contents. -/
theorem Image.commit (image : c.Image f []) (batch : Batch)
    (word : c.logEnd + batch.bytes.length < 2 ^ 64) :
    (c.commit batch).Image (f.write c.logEnd batch.bytes) [] := by
  have len : f.len = c.logEnd := image.len
  have long : (f.write c.logEnd batch.bytes).len = (c.commit batch).logEnd := by
    rw [File.write_len f _ batch.bytes_ne_nil, len, commit_logEnd]
    omega
  have held := image.held.write_end batch.bytes
  refine ⟨image.rooted.agrees (File.AgreesOutside.write f le_rfl le_rfl) c.dataStart_le_logEnd,
    ⟨held.base, ?_⟩, rfl, long, .short (by decide), ?_⟩
  · rw [commit_log]
    exact File.holds_append.mpr ⟨held.log, File.holds_write f _ _⟩
  · rw [long, commit_logEnd]
    exact word

theorem Marked.image (marked : c.Marked f) : ∃ tail, c.Image f tail := by
  obtain ⟨more, size⟩ := Nat.exists_eq_add_of_le marked.long
  refine ⟨compactMarker ++ f.slice (c.logEnd + logHeaderSize) more, marked.rooted, marked.held, ?_,
    ?_, .marked (List.prefix_append _ _), marked.word⟩
  · refine File.holds_append.mpr ⟨marked.marker, ?_⟩
    rw [compactMarker_length]
    exact File.holds_slice f _ _
  · rw [size, List.length_append, compactMarker_length, File.slice_length, Nat.add_assoc]

theorem Marked.recovers (marked : c.Marked f) : Recovers C c.map f := by
  obtain ⟨tail, image⟩ := marked.image
  exact image.recovers

/-- Writing behind the marker changes nothing. -/
theorem Marked.agrees (marked : c.Marked f) (agrees : File.AgreesOutside lo hi f g)
    (behind : c.logEnd + logHeaderSize ≤ lo) (word : hi < 2 ^ 64) : c.Marked g := by
  have start := c.dataStart_le_logEnd
  have bound := marked.word
  exact ⟨marked.rooted.agrees agrees (by omega), marked.held.agrees agrees (.inl (by omega)),
    agrees.holds marked.marker (.inl (by rw [compactMarker_length]; exact behind)),
    marked.long.trans agrees.le_len, lt_of_le_of_lt agrees.len_le (by omega)⟩

/-- A marker written behind a clean log, as far as it came. -/
theorem Image.mark (image : c.Image f []) {front : Bytes} (part : front <+: compactMarker)
    (word : c.logEnd + logHeaderSize < 2 ^ 64) : c.Image (f.write c.logEnd front) front := by
  have short := part.length_le
  rw [compactMarker_length] at short
  refine image.append ?_ (by omega)
  by_cases whole : front.length = logHeaderSize
  · have all : front = compactMarker :=
      part.eq_of_length (whole.trans compactMarker_length.symm)
    rw [all]
    exact .marked List.prefix_rfl
  · exact .short (by omega)

theorem Image.marked (image : c.Image f []) (word : c.logEnd + logHeaderSize < 2 ^ 64) :
    c.Marked (f.write c.logEnd compactMarker) := by
  have written := image.mark List.prefix_rfl word
  have len := written.len
  rw [compactMarker_length] at len
  exact ⟨written.rooted, written.held, written.ends, len.ge, written.word⟩

end Contents

end Lkv
