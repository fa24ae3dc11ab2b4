/-
# Lkv.Database.Loading — opening a file of any bytes

When does an open succeed, and what does it leave behind?  `Openable` gives the condition on
the bytes: one of the pages holds a root that fits, the Base it names passes the checks of
the mode, and the log behind it is a sequence of records with a dead tail.
`wp_openWithOptions` says that a file that can be opened is opened, with the records indexed
and the tail cut off (`Opened`, `recoverEffects`), and that every other file is refused with
an error and left as it is.
-/
import Lkv.Database.Grammar
import Lkv.Database.Opening

namespace Lkv

open Lkv.Theory Lkv.Theory.Prog Dictionary

set_option autoImplicit false

section Mapping

variable {C : Crates} {d : Disk} {sb : Superblock} {verification : VerificationMode}

/-- The Base that a root names, as it is mapped. -/
def Superblock.baseBytes (sb : Superblock) : BaseBytes := .mapped sb.baseOffset sb.baseSize

/-- Opening depends on the bytes of the mapping alone. -/
theorem open_congr {f f' : File} {mapping : BaseBytes}
    (same : mapping.deref f' = mapping.deref f) :
    ActiveBase.open C f' mapping sb verification = ActiveBase.open C f mapping sb verification := by
  unfold ActiveBase.open
  rw [same]

theorem wp_mapBase (d : Disk) (some : sb.baseSize ≠ 0) (word : sb.baseOffset + sb.baseSize < 2 ^ 64)
    (inside : sb.baseOffset + sb.baseSize ≤ d.file.len) :
    wp (mapBase C sb verification)
      (fun base d' => Disk.Issued [] d d' ∧
        ActiveBase.open C d.file sb.baseBytes sb verification = .ok base)
      (fun e d' => Disk.Issued [] d d' ∧
        (d.Failed e ∨ ActiveBase.open C d.file sb.baseBytes sb verification = .error e)) d := by
  refine wp_bind (wp_mono (Io.wp_map d some word inside) ?_ fun _ _ post => ⟨post.2, .inl post.1⟩)
  rintro _ d1 ⟨rfl, issued⟩
  refine wp_bind (wp_state ?_)
  rw [issued.kept]
  exact wp_lift (fun base opened => ⟨issued, opened⟩) fun e refused => ⟨issued, .inr refused⟩

/-- The mapping of a whole log. -/
def wholeLog (logStart size : Nat) : Option BaseBytes :=
  if size = 0 then none else some (.mapped logStart size)

theorem wholeLog_deref (f : File) (logStart size : Nat) :
    OverlayMap.derefOr f (wholeLog logStart size) = f.slice logStart size := by
  unfold wholeLog
  split
  · rename_i nothing
    rw [nothing]
    rfl
  · rfl

theorem wp_mapLog {logStart size : Nat} (word : logStart + size < 2 ^ 64)
    (inside : logStart + size ≤ d.file.len) :
    wp (mapLog logStart size)
      (fun bytes d' => bytes = wholeLog logStart size ∧ Disk.Issued [] d d')
      (fun e d' => d.Failed e ∧ Disk.Issued [] d d') d := by
  unfold mapLog wholeLog
  by_cases nothing : size = 0
  · rw [if_pos nothing, if_pos nothing]
    exact wp_pure ⟨rfl, Disk.Issued.refl d⟩
  · rw [if_neg nothing, if_neg nothing]
    refine wp_bind (wp_mono (Io.wp_map d nothing word inside) ?_ fun _ _ => id)
    rintro _ d1 ⟨rfl, issued⟩
    exact wp_pure ⟨rfl, issued⟩

/-- A root whose ranges fit in the file, and the part of the log to keep. -/
structure Superblock.Spans (sb : Superblock) (keep len : Nat) : Prop where
  above : dataStart ≤ sb.baseOffset
  header : baseHeader ≤ sb.baseSize
  base : sb.baseOffset + sb.baseSize ≤ sb.logStart
  log : sb.logStart ≤ keep
  inside : keep ≤ len
  word : len < 2 ^ 64

theorem Superblock.Spans.deref {keep len : Nat} {f : File} (spans : sb.Spans keep len) :
    sb.baseBytes.deref (f.setLen keep) = sb.baseBytes.deref f := by
  have log := spans.log
  have base := spans.base
  exact File.slice_congr fun i _ below => File.setLen_byte f (by omega)

/-- Cutting the tail off and mapping the Base and the log again. -/
theorem wp_discardTail {scan : OverlayScan} {bytes : Option BaseBytes} {table : List MappedRecord}
    {memory keep : Nat} {base : ActiveBase} (spans : sb.Spans keep d.file.len)
    (found : scan = ⟨.mapped bytes table [], memory, keep⟩)
    (opened : ActiveBase.open C d.file sb.baseBytes sb verification = .ok base) :
    wp (discardTail C sb verification scan)
      (fun r d' => Disk.Issued [.setLen keep, .sync] d d' ∧
        r = (base, ⟨.mapped (wholeLog sb.logStart (keep - sb.logStart)) table [], memory, keep⟩))
      (fun e _ => d.Failed e) d := by
  obtain ⟨above, header, baseEnd, log, inside, word⟩ := spans
  subst found
  unfold discardTail
  refine wp_bind (wp_lift ?_ nofun)
  rintro _ ⟨⟩
  dsimp only
  refine wp_bind (Io.wp_setLen ?_ fun error due => ⟨due, error, rfl⟩)
  have cut := Disk.issued_issue d (.setLen keep)
  refine wp_bind (Io.wp_syncData ?_ fun error due => cut.failed ⟨due, error, rfl⟩)
  have synced := cut.trans (Disk.issued_issue _ .sync)
  have again : ActiveBase.open C (d.file.setLen keep) sb.baseBytes sb verification = .ok base := by
    rw [← opened]
    exact open_congr (Superblock.Spans.deref ⟨above, header, baseEnd, log, inside, word⟩)
  unfold baseHeader at header
  refine wp_bind (wp_mono (wp_mapBase _ (by omega) (by omega) (show _ ≤ keep by omega)) ?_ ?_)
  · rintro base' d1 ⟨issued1, opened1⟩
    obtain rfl : base = base' := Except.ok.inj (again.symm.trans opened1)
    obtain ⟨-, -, -, -, -, rfl⟩ := open_eq_ok.mp opened
    show wp (Prog.lift (orFail (checkedSub keep sb.logStart) _) >>= _) _ _ d1
    rw [checkedSub_some log]
    refine wp_bind (wp_lift ?_ nofun)
    rintro _ ⟨⟩
    have file1 : d1.file = d.file.setLen keep := issued1.kept
    refine wp_bind (wp_mono (@wp_mapLog d1 sb.logStart (keep - sb.logStart) (by omega) (by
      rw [file1, File.setLen_len]
      omega)) ?_ ?_)
    · rintro _ d2 ⟨rfl, issued2⟩
      refine wp_bind (wp_lift ?_ nofun)
      rintro _ ⟨⟩
      exact wp_pure ⟨synced.trans (issued1.trans issued2), rfl⟩
    · exact fun e d2 stopped => synced.failed (issued1.failed stopped.1)
  · rintro e d1 ⟨-, stopped | refused⟩
    · exact synced.failed stopped
    · cases again.symm.trans refused

end Mapping

/-! ## The log -/

/-- An index of the records. -/
structure Indexed (records : List Record) (table : List MappedRecord) (ops : List Operation) :
    Prop where
  decodes : OverlayMap.RecordsDecode (recordsLog records) table ops
  distinct : Distinct ops
  latest : ∀ key, latest ops key = Dictionary.latest (recordsOps records) key

/-- Records and a tail that the scan leaves alone. -/
structure Parses (log : Bytes) (records : List Record) (rest : Bytes) : Prop where
  split : log = recordsLog records ++ rest
  tail : Tail rest

section Log

variable {d : Disk} {log : Bytes} {records : List Record} {rest : Bytes}

theorem wp_scanLog {logStart size : Nat} (quiet : d.Quiet) (inside : logStart + size ≤ d.file.len)
    (small : d.file.len < 2 ^ 63) :
    wp (scanLog logStart size)
      (fun scan d' => Disk.Issued [] d d' ∧ ∃ records rest table ops,
        Parses (d.file.slice logStart size) records rest ∧ Indexed records table ops ∧
        scan = ⟨.mapped (wholeLog logStart size) table [], chargeOf ops,
          logStart + (recordsLog records).length⟩)
      (fun e d' => (∃ error, e = .err error) ∧ Disk.Issued [] d d' ∧
        ¬∃ records rest, Parses (d.file.slice logStart size) records rest) d := by
  unfold scanLog wholeLog
  by_cases nothing : size = 0
  · subst nothing
    rw [if_pos rfl, if_pos rfl]
    refine wp_pure ⟨Disk.Issued.refl d, [], [], [], [], ⟨rfl, .short (by decide)⟩,
      ⟨.nil, List.nodup_nil, fun _ => rfl⟩, rfl⟩
  · rw [if_neg nothing, if_neg nothing]
    refine wp_bind (wp_mono (Io.wp_map d nothing (by omega) inside) ?_ fun _ _ stopped =>
      absurd quiet stopped.1.1)
    rintro _ d1 ⟨rfl, issued⟩
    have deref : (BaseBytes.mapped logStart size).deref d1.file = d.file.slice logStart size := by
      rw [issued.kept]
      rfl
    have length : ((BaseBytes.mapped logStart size).deref d1.file).length = size := by
      rw [deref, File.slice_length]
    have slice : ((BaseBytes.mapped logStart size).deref d1.file).length < 2 ^ 63 := by omega
    have word : logStart + ((BaseBytes.mapped logStart size).deref d1.file).length < 2 ^ 64 := by omega
    refine wp_mono (wp_ran (wp_scanOverlay_any slice word)) ?_ ?_
    · rintro scan d2 ⟨⟨issued2, records, rest, table, ops, scans⟩, -⟩
      exact ⟨issued.trans issued2, records, rest, table, ops, ⟨deref ▸ scans.bytes, scans.tail⟩,
        ⟨scans.decodes, scans.distinct, scans.latest⟩, scans.scan⟩
    · rintro e d2 ⟨⟨failed, issued2⟩, ran⟩
      refine ⟨failed, issued.trans issued2, ?_⟩
      rintro ⟨records, rest, split, ends⟩
      obtain ⟨scan, d3, _, _, ok, -⟩ := scanOverlay_of_records (issued.quiet quiet)
        (deref.trans split) ends slice word
      rw [ran] at ok
      cases ok

/-- A log has one reading. -/
theorem Parses.unique {records' : List Record} {rest' : Bytes} (small : log.length < 2 ^ 63)
    (one : Parses log records rest) (two : Parses log records' rest') :
    recordsLog records = recordsLog records' ∧ rest = rest' ∧
      ∀ key, latest (recordsOps records) key = latest (recordsOps records') key := by
  have quiet := Disk.quiet_ofFile File.empty
  have word : 0 + log.length < 2 ^ 64 := by omega
  obtain ⟨scan, d, _, _, ran, -, scans⟩ :=
    @scanOverlay_of_records _ (.memory log) 0 quiet _ _ one.split one.tail small word
  obtain ⟨scan', d', _, _, ran', -, scans'⟩ :=
    @scanOverlay_of_records _ (.memory log) 0 quiet _ _ two.split two.tail small word
  rw [ran] at ran'
  cases ran'
  have size : (recordsLog records).length = (recordsLog records').length := by
    have ended := scans.scan.symm.trans scans'.scan
    simp only [OverlayScan.mk.injEq, Nat.zero_add] at ended
    exact ended.2.2
  obtain ⟨same, same'⟩ := List.append_inj (one.split.symm.trans two.split) size
  refine ⟨same, same', fun key => ?_⟩
  have found := (scans.getHashed key).symm.trans (scans'.getHashed key)
  exact Except.ok.inj found

end Log

/-! ## The whole file -/

/-- What the bytes of a file must be for an open to succeed. -/
structure Openable (C : Crates) (verification : VerificationMode) (f : File) (sb : Superblock)
    (base : ActiveBase) (records : List Record) (rest : Bytes) : Prop where
  root : selectRoot f f.len = .ok sb
  base : ActiveBase.open C f sb.baseBytes sb verification = .ok base
  log : Parses (f.slice sb.logStart (f.len - sb.logStart)) records rest

/-- The options allow a file of this length. -/
structure Allows (options : DatabaseOptions) (len : Nat) : Prop where
  enough : minDatabaseBytes ≤ options.maxDatabaseBytes.toNat
  room : len ≤ options.maxDatabaseBytes.toNat

/-- Where the log ends that an open keeps. -/
def keptLen (sb : Superblock) (records : List Record) : Nat := sb.logStart + (recordsLog records).length

/-- What an open does to the file. -/
def recoverEffects (sb : Superblock) (records : List Record) (rest : Bytes) : List Effect :=
  if rest = [] then [] else [.setLen (keptLen sb records), .sync]

/-- The handle that an open returns. -/
structure Opened (options : DatabaseOptions) (sb : Superblock) (base : ActiveBase)
    (records : List Record) (db : Database) : Prop where
  base : db.base = base
  overlay : ∃ table ops, Indexed records table ops ∧ db.overlay =
    ⟨.mapped (wholeLog sb.logStart (recordsLog records).length) table [], chargeOf ops⟩
  options : db.options = options
  guard : db.snapshotGuard = 1
  state : db.state = .healthy

section Open

variable {C : Crates} {d : Disk} {options : DatabaseOptions} {f : File} {sb : Superblock}
variable {verification : VerificationMode} {base : ActiveBase} {records : List Record} {rest : Bytes}

theorem selectRoot_spans (selected : selectRoot f f.len = .ok sb) (word : f.len < 2 ^ 64) :
    sb.Spans f.len f.len := by
  have fits := selectRoot_fits selected
  unfold Superblock.Fits at fits
  refine ⟨?_, ?_, ?_, ?_, le_rfl, word⟩ <;> omega

theorem open_logStart {mapping : BaseBytes}
    (opened : ActiveBase.open C f mapping sb verification = .ok base) : base.logStart = sb.logStart := by
  obtain ⟨-, -, -, -, -, rfl⟩ := open_eq_ok.mp opened
  rfl

/-- The part of the log that an open keeps. -/
theorem Openable.kept (openable : Openable C verification f sb base records rest)
    (word : f.len < 2 ^ 64) :
    sb.Spans (keptLen sb records) f.len ∧ keptLen sb records + rest.length = f.len := by
  have spans := selectRoot_spans openable.root word
  have start := spans.log
  have size := congrArg List.length openable.log.split
  rw [File.slice_length, List.length_append] at size
  unfold keptLen
  exact ⟨⟨spans.above, spans.header, spans.base, by omega, by omega, word⟩, by omega⟩

/-- What is left to do once the log was scanned. -/
theorem wp_finishLoading (quiet : d.Quiet)
    (openable : Openable C verification d.file sb base records rest) (small : d.file.len < 2 ^ 63)
    {scan : OverlayScan} {bytes : Option BaseBytes} {table : List MappedRecord}
    {memory : Nat} (found : scan = ⟨.mapped bytes table [], memory, keptLen sb records⟩)
    (whole : rest = [] → bytes = wholeLog sb.logStart (recordsLog records).length) :
    wp (if scan.validLen < d.file.len then discardTail C sb verification scan else keepTail base scan)
      (fun r d' => Disk.Issued (recoverEffects sb records rest) d d' ∧
        r = (base, ⟨.mapped (wholeLog sb.logStart (recordsLog records).length) table [], memory,
          keptLen sb records⟩))
      (fun _ _ => False) d := by
  obtain ⟨spans, total⟩ := openable.kept (by omega)
  have ended : scan.validLen = keptLen sb records := by rw [found]
  rw [ended]
  unfold recoverEffects
  by_cases dead : rest = []
  · rw [dead, List.length_nil] at total
    rw [if_neg (by omega), if_pos dead]
    refine wp_pure ⟨Disk.Issued.refl d, ?_⟩
    rw [found, whole dead]
  · have more := List.length_pos_iff.mpr dead
    rw [if_pos (by omega), if_neg dead]
    refine wp_mono (wp_discardTail spans found openable.base) ?_ fun _ _ stopped => stopped.1 quiet
    rintro r d' ⟨issued, rfl⟩
    rw [keptLen, Nat.add_sub_cancel_left]
    exact ⟨issued, rfl⟩

theorem wp_loadStorageState_any (quiet : d.Quiet) (small : d.file.len < 2 ^ 63) :
    wp (loadStorageState C options)
      (fun loaded d' => ∃ sb base records rest,
        Openable C options.verification d.file sb base records rest ∧
        Disk.Issued (recoverEffects sb records rest) d d' ∧ loaded.1 = base ∧
        ∃ table ops, Indexed records table ops ∧ loaded.2 =
          ⟨.mapped (wholeLog sb.logStart (recordsLog records).length) table [], chargeOf ops⟩)
      (fun e d' => (∃ error, e = .err error) ∧ Disk.Issued [] d d' ∧
        ¬∃ sb base records rest, Openable C options.verification d.file sb base records rest) d := by
  have once := Disk.issued_tick d
  unfold loadStorageState
  refine wp_bind (Io.wp_len ?_ fun _ due => absurd quiet due)
  refine wp_bind (wp_mono (wp_readLatestFrom d.tick d.file.len) ?_ ?_)
  · rintro sb d1 ⟨issued1, selected⟩
    have selected : selectRoot d.file d.file.len = .ok sb := selected (once.quiet quiet)
    have spans := selectRoot_spans selected (by omega)
    have issued1 := once.trans issued1
    have quiet1 := issued1.quiet quiet
    have file1 : d1.file = d.file := issued1.kept
    have some : sb.baseSize ≠ 0 := by
      have := spans.header
      unfold baseHeader at this
      omega
    have baseEnd := spans.base
    have logStart := spans.log
    refine wp_bind (wp_mono (wp_mapBase d1 some (by omega) (by rw [file1]; omega)) ?_ ?_)
    · rintro base d2 ⟨issued2, opened⟩
      rw [file1] at opened
      have issued2 := issued1.trans issued2
      have quiet2 := issued2.quiet quiet
      have file2 : d2.file = d.file := issued2.kept
      rw [open_logStart opened, checkedSub_some logStart]
      refine wp_bind (wp_lift ?_ nofun)
      rintro _ ⟨⟩
      refine wp_bind (wp_mono (wp_scanLog quiet2 (by rw [file2]; omega) (by rw [file2]; omega)) ?_ ?_)
      · rintro scan d3 ⟨issued3, records, rest, table, ops, parses, indexed, found⟩
        rw [file2] at parses
        have issued3 := issued2.trans issued3
        have quiet3 := issued3.quiet quiet
        have file3 : d3.file = d.file := issued3.kept
        have openable : Openable C options.verification d.file sb base records rest :=
          ⟨selected, opened, parses⟩
        have whole : rest = [] → wholeLog sb.logStart (d.file.len - sb.logStart) =
            wholeLog sb.logStart (recordsLog records).length := by
          intro dead
          have size := congrArg List.length parses.split
          rw [File.slice_length, dead, List.append_nil] at size
          rw [size]
        have finish := @wp_finishLoading C d3 sb options.verification base records rest quiet3
          (file3.symm ▸ openable) (file3.symm ▸ small) scan _ table _ found whole
        rw [file3] at finish
        refine wp_ite_bind (wp_mono finish ?_ fun _ _ => False.elim)
        rintro _ d4 ⟨issued4, rfl⟩
        have issued4 := issued3.trans issued4
        refine wp_bind (Io.wp_seekEnd (wp_pure ?_) fun _ due => absurd (issued4.quiet quiet) due)
        have done := issued4.trans (Disk.issued_seek d4 d4.file.len)
        rw [List.append_nil] at done
        exact ⟨sb, base, records, rest, openable, done, rfl, table, ops, indexed, rfl⟩
      · rintro e d3 ⟨failed, issued3, none⟩
        rw [file2] at none
        refine ⟨failed, issued2.trans issued3, ?_⟩
        rintro ⟨sb', base', records, rest, openable⟩
        cases selected.symm.trans openable.root
        exact none ⟨records, rest, openable.log⟩
    · rintro e d2 ⟨issued2, stopped⟩
      rcases stopped with stopped | refused
      · exact absurd quiet1 stopped.1
      · rw [file1] at refused
        have safe := @open_noPanic C d.file sb.baseBytes sb options.verification (by
          rw [Superblock.baseBytes, BaseBytes.deref, File.slice_length]
          omega)
        refine ⟨safe e refused, issued1.trans issued2, ?_⟩
        rintro ⟨sb', base', records, rest, openable⟩
        cases selected.symm.trans openable.root
        cases refused.symm.trans openable.base
  · rintro e d1 ⟨issued1, refused⟩
    have refused : selectRoot d.file d.file.len = .error e := refused (once.quiet quiet)
    refine ⟨selectRoot_noPanic e refused, once.trans issued1, ?_⟩
    rintro ⟨sb', base', records, rest, openable⟩
    cases refused.symm.trans openable.root

/-- What an open returns and leaves. -/
structure Recovered (C : Crates) (options : DatabaseOptions) (d : Disk) (sb : Superblock)
    (base : ActiveBase) (records : List Record) (rest : Bytes) (db : Database) (d' : Disk) :
    Prop where
  allows : Allows options d.file.len
  openable : Openable C options.verification d.file sb base records rest
  opened : Opened options sb base records db
  issued : Disk.Issued (recoverEffects sb records rest) d d'

/-- A file that can be opened is opened; every other is refused and left as it is. -/
theorem wp_openWithOptions (quiet : d.Quiet) (small : d.file.len < 2 ^ 63) :
    wp (openWithOptions C options)
      (fun db d' => ∃ sb base records rest, Recovered C options d sb base records rest db d')
      (fun e d' => (∃ error, e = .err error) ∧ Disk.Issued [] d d' ∧
        ¬(Allows options d.file.len ∧ ∃ sb base records rest,
          Openable C options.verification d.file sb base records rest)) d := by
  have once := Disk.issued_tick d
  have twice := once.trans (Disk.issued_tick _)
  have thrice := twice.trans (Disk.issued_tick _)
  have fourth := thrice.trans (Disk.issued_tick _)
  unfold openWithOptions validateOptions
  split
  · rename_i few
    refine wp_bind (wp_lift nofun ?_)
    rintro _ ⟨⟩
    exact ⟨⟨_, rfl⟩, Disk.Issued.refl d, fun can => absurd can.1.enough (Nat.not_le.mpr few)⟩
  rename_i enough
  have refuse : ∀ {d' : Disk}, Disk.Issued [] d d' → options.maxDatabaseBytes.toNat < d.file.len →
      (∃ error, Stop.err (.databaseFullFor options.maxDatabaseBytes.toNat d.file.len) = .err error) ∧
        Disk.Issued [] d d' ∧ ¬(Allows options d.file.len ∧ ∃ sb base records rest,
          Openable C options.verification d.file sb base records rest) :=
    fun issued full => ⟨⟨_, rfl⟩, issued, fun can => absurd can.1.room (Nat.not_le.mpr full)⟩
  refine wp_bind (wp_lift ?_ nofun)
  rintro _ ⟨⟩
  refine wp_bind (wp_bind (Io.wp_call (wp_pure (wp_bind (Io.wp_nextFault ?_ ?_))) ?_))
  · refine wp_pure (wp_bind (Io.wp_len ?_ fun _ due => absurd (twice.quiet quiet) due))
    show wp (if d.file.len > options.maxDatabaseBytes.toNat then _ else _) _ _ _
    split
    · rename_i full
      exact wp_stop (refuse thrice full)
    rename_i room
    refine wp_bind (Io.wp_len ?_ fun _ due => absurd (thrice.quiet quiet) due)
    show wp (if d.file.len > options.maxDatabaseBytes.toNat then _ else _) _ _ _
    rw [if_neg room]
    refine wp_bind (wp_mono (wp_loadStorageState_any (fourth.quiet quiet) small) ?_ ?_)
    · rintro ⟨base, overlay⟩ d' ⟨sb, _, records, rest, openable, issued, rfl, table, ops, indexed, rfl⟩
      exact wp_pure ⟨sb, base, records, rest, ⟨Nat.not_lt.mp enough, Nat.not_lt.mp room⟩, openable,
        ⟨rfl, ⟨table, ops, indexed, rfl⟩, rfl, rfl, rfl⟩, fourth.trans issued⟩
    · rintro e d' ⟨failed, issued, none⟩
      exact ⟨failed, fourth.trans issued, fun can => none can.2⟩
  · exact fun _ _ due => absurd (once.quiet quiet) due
  · exact fun _ due => absurd quiet due

theorem open_recovered (small : f.len < 2 ^ 63) {db : Database} {d' : Disk}
    (opened : openWithOptions C options (Disk.ofFile f []) = (.ok db, d')) :
    ∃ sb base records rest,
      Recovered C options (Disk.ofFile f []) sb base records rest db d' :=
  wp_ok (wp_openWithOptions (Disk.quiet_ofFile f) small) opened

/-- A file that can be opened is opened, whatever its records are found to be. -/
theorem Openable.opens (openable : Openable C options.verification f sb base records rest)
    (allows : Allows options f.len) (small : f.len < 2 ^ 63) :
    ∃ db d', openWithOptions C options (Disk.ofFile f []) = (.ok db, d') ∧
      ∃ records', recordsLog records' = recordsLog records ∧
        (∀ key, latest (recordsOps records') key = latest (recordsOps records) key) ∧
        Recovered C options (Disk.ofFile f []) sb base records' rest db d' := by
  have spec := @wp_openWithOptions C (Disk.ofFile f []) options (Disk.quiet_ofFile f) small
  cases ran : openWithOptions C options (Disk.ofFile f []) with
  | mk r d' =>
      cases r with
      | error e =>
          have refused := wp_error spec ran
          exact absurd ⟨allows, sb, base, records, rest, openable⟩ refused.2.2
      | ok db =>
          obtain ⟨sb', base', records', rest', recovered⟩ := wp_ok spec ran
          cases openable.root.symm.trans recovered.openable.root
          cases openable.base.symm.trans recovered.openable.base
          have size : (f.slice sb.logStart (f.len - sb.logStart)).length < 2 ^ 63 := by
            rw [File.slice_length]
            omega
          obtain ⟨same, rfl, latest⟩ := openable.log.unique size recovered.openable.log
          exact ⟨db, d', rfl, records', same.symm, fun key => (latest key).symm, recovered⟩

end Open

end Lkv
