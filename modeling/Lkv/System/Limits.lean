/-
# Lkv.System.Limits — the size limit

A handle that was opened with `max_database_bytes` never makes its storage longer, at no
point of any operation, whether the operation succeeds or fails and wherever it is cut
short (`size_limit_always`).  Nothing is assumed of the bytes that are opened, nor of the
calls that fail.

Every write is announced before it is made: a commit asks for the length that
`batch_payload_len` predicts (`writeBatchRecordInner_chunks`), a compaction for the size
that `measure_base_iter` predicts.  A compaction reads its entries twice, to measure and to
write; both times they are the same, because the handle reads mapped ranges that end
where its file ended when they were mapped (`Handle.Anchored`), and the staging Base is
written behind that.
-/
import Lkv.Database.Transacting
import Lkv.System.Charges

namespace Lkv
open Lkv.Theory Lkv.Theory.Prog

set_option autoImplicit false

/-! ## Storage that stays short -/

namespace Disk

variable {limit : Nat} {d d' d'' : Disk}

/-- Nothing that was issued goes beyond the limit. -/
def Bounded (limit : Nat) (d d' : Disk) : Prop :=
  ∃ effects, Issued effects d d' ∧ ∀ e ∈ effects, e.Below limit

theorem Issued.bounded (kept : Issued [] d d') : Bounded limit d d' :=
  ⟨[], kept, List.forall_mem_nil _⟩

theorem Issued.bounded_of {effects : List Effect} (issued : Issued effects d d')
    (below : ∀ e ∈ effects, e.Below limit) : Bounded limit d d' :=
  ⟨effects, issued, below⟩

theorem Bounded.trans (one : Bounded limit d d') (two : Bounded limit d' d'') :
    Bounded limit d d'' := by
  obtain ⟨first, issued, below⟩ := one
  obtain ⟨second, issued', below'⟩ := two
  exact ⟨first ++ second, issued.trans issued', List.forall_mem_append.mpr ⟨below, below'⟩⟩

theorem Touched.bounded {lo hi : Nat} (touched : Touched lo hi d d') (room : hi ≤ limit) :
    Bounded limit d d' := by
  obtain ⟨effects, issued, within, -⟩ := touched
  exact ⟨effects, issued, fun e member => (within e member).below room⟩

theorem Bounded.keeps (bounded : Bounded limit d d') (short : d.file.len ≤ limit) :
    Keeps (fun g => g.len ≤ limit) d d' := by
  obtain ⟨effects, issued, below⟩ := bounded
  exact ⟨effects, issued, Effect.survives_below below short⟩

end Disk

/-! ## Reading what was there -/

/-- A mapped range lies in the file. -/
def BaseBytes.Inside (f : File) : BaseBytes → Prop
  | .mapped offset size => offset + size ≤ f.len
  | .memory _ => True

def OverlayMap.Inside (f : File) : OverlayMap → Prop
  | .memory _ => True
  | .mapped bytes _ _ => ∀ mapping ∈ bytes, mapping.Inside f

theorem BaseBytes.Inside.mono {f g : File} {bytes : BaseBytes} (inside : bytes.Inside f)
    (grown : f.len ≤ g.len) : bytes.Inside g := by
  cases bytes with
  | mapped offset size => exact inside.trans grown
  | memory bytes => trivial

theorem OverlayMap.Inside.mono {f g : File} {overlay : OverlayMap} (inside : overlay.Inside f)
    (grown : f.len ≤ g.len) : overlay.Inside g := by
  cases overlay with
  | memory table => trivial
  | mapped bytes table tail => exact fun mapping member => (inside mapping member).mono grown

theorem BaseBytes.Inside.deref {f g : File} {hi : Nat} {bytes : BaseBytes} (inside : bytes.Inside f)
    (agrees : File.AgreesOutside f.len hi f g) : bytes.deref g = bytes.deref f := by
  cases bytes with
  | mapped offset size => exact agrees.slice (.inl inside)
  | memory bytes => rfl

theorem OverlayMap.Inside.log {f g : File} {hi : Nat} {overlay : OverlayMap}
    (inside : overlay.Inside f) (agrees : File.AgreesOutside f.len hi f g) :
    overlay.log g = overlay.log f := by
  cases overlay with
  | memory table => rfl
  | mapped bytes table tail =>
      cases bytes with
      | none => rfl
      | some mapping => exact (inside mapping rfl).deref agrees

/-- A handle reads only what its file held when it was mapped. -/
structure Handle.Anchored (h : Handle) : Prop where
  base : h.db.base.mapping.Inside h.disk.file
  overlay : h.db.overlay.index.Inside h.disk.file

theorem Handle.Anchored.grown {h h' : Handle} (anchored : h.Anchored)
    (base : h'.db.base.mapping = h.db.base.mapping)
    (overlay : h'.db.overlay.index = h.db.overlay.index)
    (grown : h.disk.file.len ≤ h'.disk.file.len) : h'.Anchored where
  base := base ▸ anchored.base.mono grown
  overlay := overlay ▸ anchored.overlay.mono grown

/-! ## Opening any file -/

section Opening

variable {C : Crates} {options : DatabaseOptions} {d : Disk} {limit : Nat}

/-- A range is mapped only if it lies in the file. -/
theorem Io.wp_map_inside (d : Disk) (offset size : Nat) :
    wp (Io.map offset size)
      (fun mapping d' => mapping.Inside d.file ∧ Disk.Issued [] d d')
      (fun e d' => (∃ error, e = .err error) ∧ Disk.Issued [] d d') d := by
  have once := Disk.issued_tick d
  have twice := once.trans (Disk.issued_tick _)
  unfold Io.map
  split
  · exact wp_stop ⟨⟨_, rfl⟩, .refl d⟩
  refine wp_bind (wp_lift (fun stop summed => ?_) fun e overflow => ?_)
  swap
  · obtain ⟨error, rfl, -⟩ := failsWith_orFail (P := fun _ => True) _ trivial e overflow
    exact ⟨⟨error, rfl⟩, .refl d⟩
  rw [orFail_eq_ok, checkedAdd_eq_some_iff] at summed
  refine wp_bind (Io.wp_len ?_ fun error _ => ⟨⟨error, rfl⟩, once⟩)
  split
  · exact wp_stop ⟨⟨_, rfl⟩, once⟩
  · rename_i inside
    refine Io.wp_call (wp_pure ⟨?_, twice⟩) fun error _ => ⟨⟨error, rfl⟩, twice⟩
    show offset + size ≤ d.file.len
    rw [← summed.1]
    exact Nat.not_lt.mp inside

theorem wp_mapBase_inside (d : Disk) (sb : Superblock) (verification : VerificationMode) :
    wp (mapBase C sb verification)
      (fun base d' => base.mapping.Inside d.file ∧ Disk.Issued [] d d')
      (fun _ d' => Disk.Issued [] d d') d := by
  refine wp_bind (wp_mono (Io.wp_map_inside d _ _) ?_ fun _ _ => And.right)
  rintro mapping d1 ⟨inside, issued⟩
  refine wp_bind (wp_state (wp_lift (fun base opened => ⟨?_, issued⟩) fun _ _ => issued))
  obtain ⟨layout, -, -, -, -, rfl⟩ := open_eq_ok.mp opened
  exact inside

theorem wp_mapLog_inside (d : Disk) (logStart size : Nat) :
    wp (mapLog logStart size)
      (fun mapping d' => (∀ bytes ∈ mapping, bytes.Inside d.file) ∧ Disk.Issued [] d d')
      (fun _ d' => Disk.Issued [] d d') d := by
  unfold mapLog
  split
  · exact wp_pure ⟨fun _ none => (Option.not_mem_none _ none).elim, .refl d⟩
  · refine wp_bind (wp_mono (Io.wp_map_inside d _ _) ?_ fun _ _ => And.right)
    rintro mapping d1 ⟨inside, issued⟩
    exact wp_pure ⟨fun bytes is => Option.mem_some_iff.mp is ▸ inside, issued⟩

theorem installRecovered_inside {file f : File} {record : MappedRecord} {overlay : OverlayMap}
    {r : OverlayMap × Nat × Nat} (ran : overlay.installRecovered file record = .ok r)
    (inside : overlay.Inside f) : r.1.Inside f := by
  cases overlay with
  | memory table => cases ran
  | mapped bytes table tail =>
      cases bytes with
      | none => cases ran
      | some bytes =>
          obtain ⟨added, -, ran⟩ := bind_eq_ok.mp ran
          obtain ⟨⟨previous, table'⟩, -, ran⟩ := bind_eq_ok.mp ran
          cases previous with
          | none =>
              cases ran
              exact inside
          | some previous =>
              obtain ⟨removed, -, ran⟩ := bind_eq_ok.mp ran
              cases ran
              exact inside

theorem applyOperations_inside {file f : File} {payload : Bytes} {payloadOffset count cursor : Nat}
    {scan : ScanState} {r : Nat × ScanState}
    (ran : applyOperations file payload payloadOffset count cursor scan = .ok r)
    (inside : scan.index.Inside f) : r.2.index.Inside f := by
  induction count generalizing cursor scan with
  | zero =>
      cases ran
      exact inside
  | succ count ih =>
      obtain ⟨⟨record, next⟩, -, ran⟩ := bind_eq_ok.mp ran
      obtain ⟨⟨index, removed, added⟩, installed, ran⟩ := bind_eq_ok.mp ran
      exact ih ran (installRecovered_inside installed inside)

theorem wp_applyBatchPayload_inside (d : Disk) (payload : Bytes) (payloadOffset : Nat) {f : File}
    {scan : ScanState} (inside : scan.index.Inside f) :
    wp (applyBatchPayload payload payloadOffset scan)
      (fun scan' d' => scan'.index.Inside f ∧ Disk.Issued [] d d')
      (fun _ d' => Disk.Issued [] d d') d := by
  have once := Disk.issued_tick d
  refine wp_bind (wp_lift (fun countBytes _ => ?_) fun _ _ => .refl d)
  dsimp only
  split
  · exact wp_stop (.refl d)
  refine wp_bind (Io.wp_reserve ?_ fun _ => once)
  refine wp_bind (wp_state (wp_bind (wp_lift (fun r ran => ?_) fun _ _ => once)))
  obtain ⟨cursor, scan'⟩ := r
  dsimp only
  split
  · exact wp_stop once
  · exact wp_pure ⟨applyOperations_inside ran inside, once⟩

theorem wp_scanFrom_inside {bytes : Bytes} {mappingOffset fuel offset : Nat} {f : File}
    {scan : ScanState} (d : Disk) (inside : scan.index.Inside f) :
    wp (scanFrom bytes mappingOffset fuel offset scan)
      (fun r d' => r.2.index.Inside f ∧ Disk.Issued [] d d')
      (fun _ d' => Disk.Issued [] d d') d := by
  induction fuel generalizing offset scan d with
  | zero => exact wp_stop (.refl d)
  | succ fuel ih =>
      unfold scanFrom
      split
      · refine wp_bind (wp_lift (fun step _ => ?_) fun _ _ => .refl d)
        cases step with
        | stop => exact wp_pure ⟨inside, .refl d⟩
        | batch payload headerEnd recordEnd =>
            refine wp_bind (wp_mono (wp_applyBatchPayload_inside d _ _ inside) ?_ fun _ _ => id)
            rintro scan' d1 ⟨inside', issued⟩
            exact wp_mono (ih d1 inside') (fun _ _ post => ⟨post.1, issued.trans post.2⟩)
              fun _ _ issued' => issued.trans issued'
      · exact wp_pure ⟨inside, .refl d⟩

theorem wp_scanLog_inside (d : Disk) (logStart size : Nat) :
    wp (scanLog logStart size)
      (fun scan d' => scan.index.Inside d.file ∧ Disk.Issued [] d d')
      (fun _ d' => Disk.Issued [] d d') d := by
  unfold scanLog
  split
  · exact wp_pure ⟨fun _ none => (Option.not_mem_none _ none).elim, .refl d⟩
  refine wp_bind (wp_mono (Io.wp_map_inside d _ _) ?_ fun _ _ => And.right)
  rintro mapping d1 ⟨inside, issued⟩
  refine wp_bind (wp_state (wp_bind (wp_mono (wp_scanFrom_inside d1
    (show OverlayMap.Inside d.file (.mapped (some mapping) [] []) from fun bytes is =>
      Option.mem_some_iff.mp is ▸ inside)) ?_ fun _ _ issued' => issued.trans issued')))
  rintro ⟨offset, scan⟩ d2 ⟨inside', issued'⟩
  have both := issued.trans issued'
  exact wp_bind (wp_lift (fun validLen _ => wp_pure ⟨inside', both⟩) fun _ _ => both)

theorem replaceMapping_inside {scan scan' : OverlayScan} {bytes : Option BaseBytes} {f : File}
    (ran : scan.replaceMapping bytes = .ok scan') (inside : ∀ mapping ∈ bytes, mapping.Inside f) :
    scan'.index.Inside f ∧ scan'.validLen = scan.validLen := by
  obtain ⟨index, replaced, ran⟩ := bind_eq_ok.mp ran
  cases ran
  refine ⟨?_, rfl⟩
  show index.Inside f
  cases is : scan.index with
  | memory table =>
      rw [is] at replaced
      cases replaced
  | mapped old table tail =>
      rw [is] at replaced
      cases replaced
      exact inside

/-- A tail that is discarded is cut off; what is read afterwards is mapped anew. -/
theorem wp_discardTail_inside (d : Disk) (sb : Superblock) (verification : VerificationMode)
    (scan : OverlayScan) (room : scan.validLen ≤ limit) :
    wp (discardTail C sb verification scan)
      (fun r d' => r.1.mapping.Inside d'.file ∧ r.2.index.Inside d'.file ∧ d.Bounded limit d')
      (fun _ d' => d.Bounded limit d') d := by
  have cut := Disk.issued_issue d (.setLen scan.validLen)
  have low : ∀ {effects : List Effect}, effects = [.setLen scan.validLen] ∨
      effects = [.setLen scan.validLen, .sync] → ∀ e ∈ effects, e.Below limit := by
    rintro _ (rfl | rfl)
    · exact List.forall_mem_singleton.mpr room
    · exact List.forall_mem_cons.mpr ⟨room, List.forall_mem_singleton.mpr trivial⟩
  refine wp_bind (wp_lift (fun released ran => ?_) fun _ _ => (Disk.Issued.refl d).bounded)
  have len : released.validLen = scan.validLen :=
    (replaceMapping_inside (f := d.file) ran fun _ none => (Option.not_mem_none _ none).elim).2
  rw [len]
  refine wp_bind (Io.wp_setLen ?_ fun _ _ => (Disk.issued_tick d).bounded)
  refine wp_bind (Io.wp_syncData ?_ fun _ _ =>
    (cut.trans (Disk.issued_tick _)).bounded_of (low (.inl rfl)))
  have issued := cut.trans (Disk.issued_issue _ .sync)
  generalize (d.tick.issue (.setLen scan.validLen)).tick.issue .sync = d1 at issued
  have bounded := issued.bounded_of (low (.inr rfl))
  refine wp_bind (wp_mono (wp_mapBase_inside d1 sb verification) ?_ fun _ _ issued2 =>
    bounded.trans issued2.bounded)
  rintro base d2 ⟨inside2, issued2⟩
  have bounded2 := bounded.trans issued2.bounded
  refine wp_bind (wp_lift (fun overlaySize _ => ?_) fun _ _ => bounded2)
  refine wp_bind (wp_mono (wp_mapLog_inside d2 _ _) ?_ fun _ _ issued3 =>
    bounded2.trans issued3.bounded)
  rintro mapping d3 ⟨inside3, issued3⟩
  have bounded3 := bounded2.trans issued3.bounded
  refine wp_bind (wp_lift (fun replaced ran => ?_) fun _ _ => bounded3)
  refine wp_pure ⟨?_, ?_, bounded3⟩
  · rw [issued3.kept, issued2.kept]
    exact inside2
  · rw [issued3.kept]
    exact (replaceMapping_inside ran inside3).1

theorem wp_loadStorageState_inside (d : Disk) (room : d.file.len ≤ limit) :
    wp (loadStorageState C options)
      (fun loaded d' => loaded.1.mapping.Inside d'.file ∧ loaded.2.index.Inside d'.file ∧
        d.Bounded limit d')
      (fun _ d' => d.Bounded limit d') d := by
  have once := Disk.issued_tick d
  refine wp_bind (Io.wp_len ?_ fun _ _ => once.bounded)
  refine wp_bind (wp_mono (wp_readLatestFrom _ _) ?_ fun _ _ stopped =>
    (once.trans stopped.1).bounded)
  rintro sb d1 ⟨issued1, -⟩
  have issued1 := once.trans issued1
  refine wp_bind (wp_mono (wp_mapBase_inside d1 _ _) ?_ fun _ _ stopped =>
    (issued1.trans stopped).bounded)
  rintro base d2 ⟨inside2, issued2⟩
  have issued2' := issued1.trans issued2
  refine wp_bind (wp_lift (fun size _ => ?_) fun _ _ => issued2'.bounded)
  refine wp_bind (wp_mono (wp_scanLog_inside d2 _ _) ?_ fun _ _ stopped =>
    (issued2'.trans stopped).bounded)
  rintro scan d3 ⟨inside3, issued3⟩
  have issued3' := issued2'.trans issued3
  refine wp_ite_bind ?_
  refine wp_mono (Q := fun r d' => r.1.mapping.Inside d'.file ∧ r.2.index.Inside d'.file ∧
    d3.Bounded limit d') (E := fun _ d' => d3.Bounded limit d') ?_ ?_ ?_
  · split
    · rename_i short
      exact wp_discardTail_inside d3 _ _ scan (by omega)
    · refine wp_pure ⟨?_, ?_, (Disk.Issued.refl d3).bounded⟩
      · rw [issued3.kept, issued2.kept]
        exact inside2
      · rw [issued3.kept]
        exact inside3
  · rintro ⟨base', scan'⟩ d4 ⟨baseInside, overlayInside, bounded⟩
    have bounded := issued3'.bounded.trans bounded
    exact wp_bind (Io.wp_seekEnd (wp_pure ⟨baseInside, overlayInside,
        bounded.trans (Disk.issued_seek d4 _).bounded⟩)
      fun _ _ => bounded.trans (Disk.issued_tick d4).bounded)
  · exact fun _ _ bounded => issued3'.bounded.trans bounded

/-- A handle that opened its file: `limit` is its `max_database_bytes`. -/
structure Handle.Bounded (limit : UInt64) (h : Handle) : Prop where
  options : h.db.options.maxDatabaseBytes = limit
  short : h.disk.file.len ≤ limit.toNat
  anchored : h.db.state = .healthy → h.Anchored

theorem wp_fromStorage_bounded (d : Disk) :
    wp (fromStorage C options)
      (fun db d' => d.file.len ≤ options.maxDatabaseBytes.toNat ∧
        Handle.Bounded options.maxDatabaseBytes ⟨db, d'⟩ ∧ d.Bounded options.maxDatabaseBytes.toNat d')
      (fun _ d' => d.Bounded options.maxDatabaseBytes.toNat d' ∧
        (options.maxDatabaseBytes.toNat < d.file.len → Disk.Issued [] d d')) d := by
  have once := Disk.issued_tick d
  refine wp_bind (Io.wp_len ?_ fun _ _ => ⟨once.bounded, fun _ => once⟩)
  by_cases full : options.maxDatabaseBytes.toNat < d.file.len
  · rw [if_pos full]
    exact wp_stop ⟨once.bounded, fun _ => once⟩
  · have short := Nat.not_lt.mp full
    rw [if_neg full]
    refine wp_bind (wp_mono (wp_loadStorageState_inside d.tick short) ?_ fun _ _ bounded =>
      ⟨once.bounded.trans bounded, fun long => absurd long full⟩)
    rintro ⟨base, overlay⟩ d' ⟨baseInside, overlayInside, bounded⟩
    have bounded := once.bounded.trans bounded
    exact wp_pure ⟨short, ⟨rfl, (bounded.keeps short).now, fun _ => ⟨baseInside, overlayInside⟩⟩,
      bounded⟩

/-- Opening never makes a file longer, and leaves one that is too long as it is. -/
theorem wp_openWithOptions_bounded (d : Disk) :
    wp (openWithOptions C options)
      (fun db d' => d.file.len ≤ options.maxDatabaseBytes.toNat ∧
        Handle.Bounded options.maxDatabaseBytes ⟨db, d'⟩ ∧ d.Bounded options.maxDatabaseBytes.toNat d')
      (fun _ d' => d.Bounded options.maxDatabaseBytes.toNat d' ∧
        (options.maxDatabaseBytes.toNat < d.file.len → Disk.Issued [] d d')) d := by
  have kept : ∀ {d' : Disk}, Disk.Issued [] d d' → d.Bounded options.maxDatabaseBytes.toNat d' ∧
      (options.maxDatabaseBytes.toNat < d.file.len → Disk.Issued [] d d') :=
    fun issued => ⟨issued.bounded, fun _ => issued⟩
  have once := Disk.issued_tick d
  have twice := once.trans (Disk.issued_tick _)
  have thrice := twice.trans (Disk.issued_tick _)
  refine wp_bind (wp_lift (fun _ _ => ?_) fun _ _ => kept (.refl d))
  refine wp_bind (wp_bind (Io.wp_call (wp_pure (wp_bind (Io.wp_nextFault ?_ ?_))) fun _ _ => kept once))
  · refine wp_pure (wp_bind (Io.wp_len ?_ fun _ _ => kept thrice))
    split
    · exact wp_stop (kept thrice)
    · refine wp_mono (wp_fromStorage_bounded d.tick.tick.tick) (fun db d' post => ?_)
        fun e d' post => ?_
      · exact ⟨post.1, post.2.1, thrice.bounded.trans post.2.2⟩
      · exact ⟨thrice.bounded.trans post.1, fun long => thrice.trans (post.2 long)⟩
  · exact fun _ _ _ => wp_stop (kept twice)

/-- A new file is written up to its smallest size. -/
theorem wp_initializeFile_bounded (d : Disk) :
    wp (initializeFile C) (fun _ d' => d.Bounded minDatabaseBytes d')
      (fun _ d' => d.Bounded minDatabaseBytes d') d := by
  have low : dataStart ≤ minDatabaseBytes := by decide
  have cut : ∀ {d' : Disk}, Disk.Issued [.setLen dataStart] d d' → d.Bounded minDatabaseBytes d' :=
    fun issued => issued.bounded_of (List.forall_mem_singleton.mpr low)
  refine wp_bind (Io.wp_setLen ?_ fun _ _ => (Disk.issued_tick d).bounded)
  have bounded := cut (Disk.issued_issue d (.setLen dataStart))
  refine wp_bind (wp_mono (wp_writeEmptyBase C _ (by decide)) ?_ fun _ _ stopped =>
    bounded.trans (stopped.2.bounded le_rfl))
  rintro size d1 ⟨-, -, touched⟩
  have bounded1 := bounded.trans (touched.bounded le_rfl)
  refine wp_bind (wp_mono (Io.wp_map_inside d1 _ _) ?_ fun _ _ stopped =>
    bounded1.trans stopped.2.bounded)
  rintro mapping d2 ⟨-, issued2⟩
  have bounded2 := bounded1.trans issued2.bounded
  refine wp_bind (wp_state (wp_bind (wp_lift (fun checksum _ => ?_) fun _ _ => bounded2)))
  generalize Superblock.new 1 dataStart size 0 0 (dataStart + size) checksum = sb
  have ends : Superblock.pageOffset sb.generation + sb.encodePage.length ≤ minDatabaseBytes := by
    rw [sb.encodePage_length]
    exact (pageOffset_end_le _).trans low
  refine wp_bind (wp_mono (wp_write sb d2) ?_ ?_)
  · intro _ d3 issued3
    have bounded3 := bounded2.trans (issued3.bounded_of (List.forall_mem_singleton.mpr ends))
    exact Io.wp_syncAll (bounded3.trans ((Disk.issued_issue d3 .sync).bounded_of
      (List.forall_mem_singleton.mpr trivial))) fun _ _ =>
        bounded3.trans (Disk.issued_tick d3).bounded
  · rintro e d3 ⟨failed, effects, torn, issued3⟩
    exact bounded2.trans ((torn.touched failed issued3).bounded ends)

theorem wp_createWithOptions_bounded (d : Disk) :
    wp (createWithOptions C options)
      (fun db d' => Handle.Bounded options.maxDatabaseBytes ⟨db, d'⟩ ∧
        d.Bounded options.maxDatabaseBytes.toNat d')
      (fun _ d' => d.Bounded options.maxDatabaseBytes.toNat d') d := by
  refine wp_bind (wp_lift (fun _ valid => ?_) fun _ _ => (Disk.Issued.refl d).bounded)
  have enough : minDatabaseBytes ≤ options.maxDatabaseBytes.toNat := by
    unfold validateOptions at valid
    split at valid
    · cases valid
    · rename_i enough
      exact Nat.not_lt.mp enough
  have called : ∀ {d' : Disk} {Q : Unit → Disk → Prop},
      d.Bounded options.maxDatabaseBytes.toNat d' →
      (d.Bounded options.maxDatabaseBytes.toNat d'.tick → Q () d'.tick) →
      wp (Io.call (pure ())) Q (fun _ d'' => d.Bounded options.maxDatabaseBytes.toNat d'') d' := by
    intro d' Q bounded post
    have bounded' := bounded.trans (Disk.issued_tick d').bounded
    exact Io.wp_call (wp_pure (post bounded')) fun _ _ => bounded'
  have done : wp (createDatabaseFile C) (fun _ d' => d.Bounded options.maxDatabaseBytes.toNat d')
      (fun _ d' => d.Bounded options.maxDatabaseBytes.toNat d') d := by
    refine wp_bind (called (Disk.Issued.refl d).bounded fun bounded1 => ?_)
    have bounded2 := bounded1.trans (Disk.issued_tick d.tick).bounded
    refine wp_bind (wp_bind (Io.wp_nextFault ?_ fun _ _ _ => wp_stop bounded2))
    refine wp_pure (wp_bind (wp_mono (wp_initializeFile_bounded d.tick.tick) ?_ ?_))
    · rintro _ d3 ⟨effects, issued, below⟩
      have bounded3 := bounded2.trans (issued.bounded_of fun e member =>
        (below e member).mono enough)
      exact wp_bind (called bounded3 fun bounded4 => wp_bind (called bounded4 fun bounded5 =>
        wp_bind (called bounded5 fun bounded6 => called bounded6 id)))
    · rintro _ d3 ⟨effects, issued, below⟩
      exact bounded2.trans (issued.bounded_of fun e member => (below e member).mono enough)
  refine wp_bind (wp_mono done ?_ fun _ _ => id)
  intro _ d1 bounded
  exact wp_mono (wp_fromStorage_bounded d1) (fun _ _ post => ⟨post.2.1, bounded.trans post.2.2⟩)
    fun _ _ post => bounded.trans post.1

end Opening

/-! ## Committing on any handle -/

/-- An operation on a bounded handle issued nothing beyond the limit and leaves it bounded. -/
structure Handle.Stays (limit : UInt64) (h h' : Handle) : Prop where
  disk : h.disk.Bounded limit.toNat h'.disk
  handle : h'.Bounded limit

/-- The middle of an operation that only appends. -/
structure Handle.Grown (limit : UInt64) (h h₁ : Handle) : Prop where
  db : h₁.db = h.db
  disk : h.disk.Bounded limit.toNat h₁.disk
  len : h.disk.file.len ≤ h₁.disk.file.len

section Committing

variable {C : Crates} {limit : UInt64} {h h₁ h' : Handle} {staged : List StagedEntry}

theorem Handle.Bounded.keeps (bounded : h.Bounded limit) (disk : h.disk.Bounded limit.toNat h'.disk) :
    h'.disk.file.len ≤ limit.toNat :=
  (disk.keeps bounded.short).now

theorem Handle.Grown.stays (grown : h.Grown limit h₁) (bounded : h.Bounded limit) :
    h.Stays limit h₁ := by
  refine ⟨grown.disk, by rw [grown.db]; exact bounded.options, bounded.keeps grown.disk, fun state => ?_⟩
  rw [grown.db] at state
  exact (bounded.anchored state).grown (by rw [grown.db]) (by rw [grown.db]) grown.len

theorem Disk.Issued.grown {d : Disk} (issued : Disk.Issued [] h.disk d) :
    h.Grown limit { h with disk := d } :=
  ⟨rfl, issued.bounded, by rw [issued.kept]⟩

theorem Handle.Grown.trans {h₂ : Handle} (one : h.Grown limit h₁) (two : h₁.Grown limit h₂) :
    h.Grown limit h₂ :=
  ⟨two.db.trans one.db, one.disk.trans two.disk, one.len.trans two.len⟩

theorem Handle.Grown.touched {lo hi : Nat} {d : Disk} (grown : h.Grown limit h₁)
    (touched : Disk.Touched lo hi h₁.disk d) (room : hi ≤ limit.toNat) :
    h.Grown limit { h₁ with disk := d } :=
  ⟨grown.db, grown.disk.trans (touched.bounded room), grown.len.trans touched.agrees.le_len⟩

theorem Handle.Grown.synced (grown : h.Grown limit h₁) :
    h.Grown limit { h₁ with disk := h₁.disk.tick.issue .sync } :=
  ⟨grown.db, grown.disk.trans ((Disk.issued_issue h₁.disk .sync).bounded_of
    (List.forall_mem_singleton.mpr trivial)), grown.len⟩

/-- A rollback cuts the file back to where it ended. -/
theorem Handle.Grown.rolled {offset : Nat} (grown : h.Grown limit h₁) (bounded : h.Bounded limit)
    (rolled : Database.RolledBack offset h₁ h') (low : offset ≤ limit.toNat) : h.Stays limit h' := by
  obtain ⟨db, effects, issued, which⟩ := rolled
  have below : ∀ e ∈ effects, e.Below limit.toNat := by
    rcases which with rfl | rfl | rfl
    · exact List.forall_mem_nil _
    · exact List.forall_mem_singleton.mpr low
    · exact List.forall_mem_cons.mpr ⟨low, List.forall_mem_singleton.mpr trivial⟩
  have disk := grown.disk.trans (issued.bounded_of below)
  refine ⟨disk, ?_, bounded.keeps disk, fun state => ?_⟩
  · rw [db, grown.db]
    exact bounded.options
  · rw [db] at state
    cases state

theorem wp_mappedMutations_kept (d : Disk) (batchOffset : Nat) :
    wp (mappedMutations staged batchOffset)
      (fun _ d' => Disk.Issued [] d d' ∧ d'.position = d.position) (fun _ d' => Disk.Issued [] d d') d := by
  have once := Disk.issued_tick d
  refine wp_bind (wp_lift (fun cursor _ => ?_) fun _ _ => .refl d)
  exact wp_bind (Io.wp_reserve (wp_lift (fun _ _ => ⟨once, rfl⟩) fun _ _ => once) fun _ => once)

theorem installMapped_inside {file f : File} {overlay overlay' : OverlayState} {bytes : BaseBytes}
    {mutations : List MappedRecord} (ran : overlay.installMapped C file bytes mutations = .ok overlay')
    (inside : bytes.Inside f) : overlay'.index.Inside f := by
  unfold OverlayState.installMapped at ran
  obtain ⟨r, done, rfl⟩ : ∃ r, overlay.index.installMapped C file bytes mutations = .ok r ∧
      overlay' = .charged overlay.memory r := by
    cases installed : overlay.index.installMapped C file bytes mutations with
    | error e =>
        rw [installed] at ran
        cases ran
    | ok r =>
        rw [installed] at ran
        cases ran
        exact ⟨r, rfl, rfl⟩
  show r.1.Inside f
  cases is : overlay.index with
  | memory table =>
      rw [is] at done
      cases done
  | mapped old table tail =>
      rw [is] at done
      obtain ⟨table', -, done⟩ := bind_eq_ok.mp done
      obtain ⟨⟨table'', removed, added⟩, -, done⟩ := bind_eq_ok.mp done
      cases done
      exact fun mapping is => Option.mem_some_iff.mp is ▸ inside

theorem installTail_inside {file f : File} {overlay overlay' : OverlayState}
    {mutations : List MappedRecord} (ran : overlay.installTail file staged mutations = .ok overlay')
    (inside : overlay.index.Inside f) : overlay'.index.Inside f := by
  unfold OverlayState.installTail at ran
  obtain ⟨r, done, rfl⟩ : ∃ r, overlay.index.installTail file staged mutations = .ok r ∧
      overlay' = .charged overlay.memory r := by
    cases installed : overlay.index.installTail file staged mutations with
    | error e =>
        rw [installed] at ran
        cases ran
    | ok r =>
        rw [installed] at ran
        cases ran
        exact ⟨r, rfl, rfl⟩
  show r.1.Inside f
  cases is : overlay.index with
  | memory table =>
      rw [is] at done
      cases done
  | mapped bytes table tail =>
      rw [is] at done inside
      obtain ⟨⟨table', tail', removed, added⟩, -, done⟩ := bind_eq_ok.mp done
      cases done
      exact inside

theorem wp_publishBatch_bounded {offset overlaySize : Nat} {mutations : List MappedRecord}
    (bounded : h.Bounded limit) (healthy : h.db.state = .healthy) (grown : h.Grown limit h₁)
    (low : offset ≤ limit.toNat) :
    wp (Database.publishBatch C offset staged mutations overlaySize)
      (fun _ h' => h.Stays limit h') (fun _ h' => h.Stays limit h') h₁ := by
  have stays := grown.stays bounded
  have anchored := stays.handle.anchored (by rw [grown.db]; exact healthy)
  refine wp_bind (wp_state ?_)
  split
  · refine Database.wp_rollback_io_bind (Io.wp_map_inside h₁.disk _ _) (fun _ _ => And.left) ?_ ?_
    · rintro mapping d ⟨inside, issued⟩
      have grown' := grown.trans issued.grown
      refine wp_bind (wp_lift (fun overlay ran => wp_modify ⟨grown'.disk, ?_, ?_, fun _ => ⟨?_, ?_⟩⟩)
        fun _ _ => grown'.stays bounded)
      · exact stays.handle.options
      · exact bounded.keeps grown'.disk
      · exact anchored.base.mono (by rw [issued.kept])
      · refine installMapped_inside ran (inside.mono ?_)
        show h₁.disk.file.len ≤ d.file.len
        rw [issued.kept]
    · rintro e d h'' ⟨-, issued⟩ rolled
      exact (grown.trans issued.grown).rolled bounded rolled low
  · refine wp_bind (wp_lift (fun overlay ran => wp_modify ⟨grown.disk, ?_, ?_, fun _ => ⟨?_, ?_⟩⟩)
      fun _ _ => stays)
    · exact stays.handle.options
    · exact stays.handle.short
    · exact anchored.base
    · exact installTail_inside ran anchored.overlay

/-- A commit appends what it asked room for, or is cut back. -/
theorem wp_commitStagedWith_bounded {txn : WriteTransaction} {ops : List Operation}
    (coherent : Coherent txn ops) (bounded : h.Bounded limit) :
    wp (Database.commitStagedWith C txn.staged txn.valueChecksums)
      (fun _ h' => h.Stays limit h') (fun _ h' => h.Stays limit h') h := by
  have same : h.Grown limit h := (Disk.Issued.refl h.disk).grown
  unfold Database.commitStagedWith
  refine wp_bind (Database.wp_ensureWritable (fun healthy => ?_) fun _ => same.stays bounded)
  dsimp only
  split
  · exact wp_pure (same.stays bounded)
  refine wp_bind (wp_lift (fun payloadLen accepted => ?_) fun _ _ => same.stays bounded)
  refine wp_bind (wp_lift (fun recordLen summed => ?_) fun _ _ => same.stays bounded)
  rw [orFail_eq_ok, checkedAdd_eq_some_iff] at summed
  have once : h.Grown limit { h with disk := h.disk.tick } := (Disk.issued_tick h.disk).grown
  refine wp_bind (Database.wp_ensureCapacity (fun room => ?_) fun _ _ => once.stays bounded)
  rw [bounded.options] at room
  have size : (encodeBatch ((stagedEntries C txn.staged).map stagedOp)).length = recordLen := by
    rw [encodeBatch_length, ← (batchPayloadLen_eq_ok.mp accepted).2.1, summed.1]
  have low : h.disk.file.len ≤ limit.toNat := bounded.short
  refine wp_bind (Db.wp_io (Io.wp_seekEnd ?_ fun _ _ =>
    (once.trans (Disk.issued_tick h.disk.tick).grown).stays bounded))
  have grown1 : h.Grown limit { h with disk := { h.disk.tick.tick with position := h.disk.file.len } } :=
    once.trans (Disk.issued_seek h.disk.tick h.disk.file.len).grown
  refine wp_bind (wp_state (wp_bind (wp_lift (fun batchOffset _ => ?_) fun _ _ => grown1.stays bounded)))
  refine Db.wp_io_bind (wp_mappedMutations_kept _ _) ?_ fun _ _ issued =>
    (grown1.trans issued.grown).stays bounded
  rintro mutations d2 ⟨issued2, position2⟩
  have grown2 := grown1.trans issued2.grown
  have position2 : d2.position = h.disk.file.len := position2
  refine Database.wp_rollback_io_bind (wp_appendBatch accepted (coherent.checksumsMatch C))
    (fun _ _ stranded => stranded.failed.2) ?_ ?_
  · intro _ d3 written
    have touched := written.touched
    rw [position2, size] at touched
    have grown3 := grown2.touched touched room
    refine Database.wp_rollback_io_bind (A := fun _ d4 => d4 = d3.tick.issue .sync)
      (B := fun e d4 => (∃ error, e = .err error) ∧ d4 = d3.tick)
      (Io.wp_syncData rfl fun error _ => ⟨⟨error, rfl⟩, rfl⟩) (fun _ _ => And.left) ?_ ?_
    · rintro _ _ rfl
      have grown4 := grown3.synced
      refine Database.wp_rollback_bind (A := fun _ h₅ => h.Grown limit h₅)
        (B := fun e h₅ => (∃ error, e = .err error) ∧ h.Grown limit h₅) ?_ (fun _ _ => And.left)
        (fun _ h₅ grown5 => wp_publishBatch_bounded bounded healthy grown5 low)
        fun _ h₅ h'' broken rolled => broken.2.rolled bounded rolled low
      have grown5 := grown4.trans (Disk.issued_tick (d3.tick.issue .sync)).grown
      refine wp_bind (Db.wp_io (Io.wp_len ?_ fun error _ => ⟨⟨error, rfl⟩, grown5⟩))
      refine wp_bind (wp_state (wp_lift (fun _ _ => grown5) fun e failed => ⟨?_, grown5⟩))
      obtain ⟨error, rfl, -⟩ := failsWith_orFail (P := fun _ => True) _ trivial e failed
      exact ⟨error, rfl⟩
    · rintro e _ h'' ⟨-, rfl⟩ rolled
      exact (grown3.trans (Disk.issued_tick d3).grown).rolled bounded rolled low
  · intro e d3 h'' stranded rolled
    have touched := stranded.partly.touched
    rw [position2, size] at touched
    exact (grown2.touched touched room).rolled bounded rolled low

end Committing

/-! ## Compacting any handle -/

/-- An iterator that was measured yields the same entries as long as what it reads stays. -/
theorem yields_of_measured {f : File} {P : File → Prop} {it : RawEntries} {fuel observed size : Nat}
    {r : Nat × Nat} (measured : measureEntries RawEntries.feed f fuel it observed size = .ok r)
    (same : ∀ g, P g → it.base.mapping.deref g = it.base.mapping.deref f ∧
      it.overlay.log g = it.overlay.log f) :
    ∃ entries, Yields RawEntries.feed P it entries ∧ entries.length < fuel := by
  induction fuel generalizing it observed size with
  | zero => cases measured
  | succ fuel ih =>
      obtain ⟨⟨found, it'⟩, fed, measured⟩ := bind_eq_ok.mp measured
      have steady : ∀ g, P g → RawEntries.feed.next g it = .ok (found, it') := by
        intro g reads
        rw [← fed]
        show (it.next g >>= _) = (it.next f >>= _)
        rw [next_congr (same g reads).1 (same g reads).2]
      cases found with
      | none => exact ⟨[], .done it fun g reads => ⟨it', steady g reads⟩, Nat.succ_pos _⟩
      | some entry =>
          obtain ⟨observed', -, measured⟩ := bind_eq_ok.mp measured
          obtain ⟨size', -, measured⟩ := bind_eq_ok.mp measured
          have kept : it'.base = it.base ∧ it'.overlay = it.overlay := by
            obtain ⟨⟨item, it''⟩, stepped, fed⟩ := bind_eq_ok.mp fed
            obtain ⟨-, rfl⟩ := Prod.mk.inj (Except.ok.inj fed)
            exact next_keeps stepped
          obtain ⟨entries, yields, few⟩ := ih measured (by rwa [kept.1, kept.2])
          exact ⟨entry :: entries, .more it it' entry entries steady yields, Nat.succ_lt_succ few⟩

section Compacting

variable {C : Crates} {limit : UInt64} {h h' : Handle} {m : Move} {P : File → Prop}
variable {entries : List Entry} {slots : Nat}

theorem OverlayMap.clear_inside (overlay : OverlayMap) (f : File) : overlay.clear.Inside f := by
  cases overlay with
  | memory table => trivial
  | mapped bytes table tail => exact fun _ none => (Option.not_mem_none _ none).elim

namespace Move.For

variable (plan : m.For C P h entries slots) (room : h.db.options.maxDatabaseBytes = limit)
include plan room

/-- Everything a compaction writes ends in front of the end of its staging Base. -/
theorem ends : m.staging.root.logStart ≤ limit.toNat ∧ dataStart ≤ limit.toNat ∧
    m.oldEnd + logHeaderSize ≤ limit.toNat ∧ m.final.root.logStart + logHeaderSize ≤ limit.toNat := by
  have roomy := plan.room
  rw [room] at roomy
  rw [plan.sourceEnd, plan.destinationEnd]
  omega

theorem uptoSwitched_below {quiet : Prop} {staging : List Effect}
    (writes : Writes quiet (m.marked h.disk.file) m.staging staging) :
    ∀ e ∈ m.uptoSwitched staging, e.Below limit.toNat := by
  obtain ⟨sourceEnd, pages, marker, -⟩ := plan.ends room
  have page := (pageOffset_end_le m.staging.root.generation).trans pages
  intro e member
  simp only [Move.uptoSwitched, Move.uptoStaged, Move.stageEffects, Move.switchEffects, List.mem_append,
    List.mem_cons, List.not_mem_nil, or_false] at member
  rcases member with ((rfl | staged) | rfl) | rfl | rfl
  · show m.oldEnd + compactMarker.length ≤ _
    rw [compactMarker_length]
    exact marker
  · exact (writes.within e staged).below sourceEnd
  · trivial
  · show _ + m.staging.root.encodePage.length ≤ _
    rw [m.staging.root.encodePage_length]
    exact page
  · trivial

theorem effects_below {quiet : Prop} {staging final : List Effect}
    (wrote : m.Wrote h.disk.file quiet staging final) :
    ∀ e ∈ m.effects staging final, e.Below limit.toNat := by
  obtain ⟨-, pages, -, destinationEnd⟩ := plan.ends room
  have page : ∀ generation, (Effect.write (Superblock.pageOffset generation)
      m.final.root.encodePage).Below limit.toNat := by
    intro generation
    show _ + m.final.root.encodePage.length ≤ _
    rw [m.final.root.encodePage_length]
    exact (pageOffset_end_le generation).trans pages
  intro e member
  simp only [Move.effects, Move.uptoDoubled, Move.uptoSettled, Move.uptoMoved, Move.moveEffects,
    Move.settleEffects, Move.doubleEffects, Move.cutEffects, List.mem_append, List.mem_cons,
    List.not_mem_nil, or_false] at member
  rcases member with (((before | (moved | rfl) | rfl) | rfl | rfl) | rfl | rfl) | rfl | rfl
  · exact plan.uptoSwitched_below room wrote.staging e before
  · exact (wrote.final.within e moved).below (by omega)
  · show m.final.root.logStart + compactMarker.length ≤ _
    rw [compactMarker_length]
    exact destinationEnd
  · trivial
  · exact page _
  · trivial
  · exact page _
  · trivial
  · show m.final.root.logStart ≤ _
    omega
  · trivial

end Move.For

theorem Io.Torn.below {offset n : Nat} {bytes : Bytes} {effects : List Effect}
    (torn : Io.Torn offset bytes effects) (room : offset + bytes.length ≤ n) :
    ∀ e ∈ effects, e.Below n := by
  rcases torn with rfl | ⟨count, rfl⟩
  · exact List.forall_mem_nil _
  · refine List.forall_mem_singleton.mpr ?_
    show offset + (bytes.take count).length ≤ n
    rw [List.length_take]
    omega

theorem StageBroken.bounded {oldEnd source sourceEnd n : Nat} {d d' : Disk}
    (broken : StageBroken oldEnd source sourceEnd d d') (marker : oldEnd + logHeaderSize ≤ n)
    (room : sourceEnd ≤ n) : d.Bounded n d' := by
  obtain ⟨done, undo, issued, which, how⟩ := broken.issued
  have low : oldEnd ≤ n := by omega
  refine issued.bounded_of (List.forall_mem_append.mpr ⟨?_, ?_⟩)
  · rcases which with torn | ⟨staging, rfl, within⟩
    · exact torn.below (by rw [compactMarker_length]; exact marker)
    · refine List.forall_mem_cons.mpr ⟨?_, fun e member => (within e member).below room⟩
      show oldEnd + compactMarker.length ≤ n
      rw [compactMarker_length]
      exact marker
  · rcases how with rfl | rfl | rfl
    · exact List.forall_mem_nil _
    · exact List.forall_mem_singleton.mpr low
    · exact List.forall_mem_cons.mpr ⟨low, List.forall_mem_singleton.mpr trivial⟩

/-- Wherever a compaction stops, nothing went beyond the limit, and a handle that still
writes reads mapped bytes of its file. -/
theorem Move.Halted.stays {e : Stop} (bounded : h.Bounded limit) (healthy : h.db.state = .healthy)
    (plan : m.For C P h entries slots) (halted : m.Halted entries slots h e h') : h.Stays limit h' := by
  have config := halted.config
  obtain ⟨sourceEnd, pages, marker, destinationEnd⟩ := plan.ends bounded.options
  have page : ∀ (sb : Superblock) (generation : Nat),
      Superblock.pageOffset generation + sb.encodePage.length ≤ limit.toNat := by
    intro sb generation
    rw [sb.encodePage_length]
    exact (pageOffset_end_le generation).trans pages
  -- What is left to show once the effects are known to stay below the limit.
  have stay : ∀ {effects : List Effect}, Disk.Issued effects h.disk h'.disk →
      (∀ e ∈ effects, e.Below limit.toNat) → (h'.db.state = .healthy → h'.Anchored) →
      h.Stays limit h' := by
    intro effects issued below anchored
    have disk := issued.bounded_of below
    exact ⟨disk, config.options ▸ bounded.options, bounded.keeps disk, anchored⟩
  have dead : ∀ {db : Database}, h'.db = db.poisoned → h'.db.state = .healthy → h'.Anchored := by
    intro db is state
    rw [is] at state
    cases state
  have onStaging : h'.db = m.onStaging entries slots h.db →
      (m.switched h.disk.file).len ≤ h'.disk.file.len → h'.Anchored := by
    intro db long
    refine ⟨?_, ?_⟩
    · rw [db]
      show m.staging.root.baseOffset + m.staging.root.baseSize ≤ _
      rw [plan.stagingOf.size, ← plan.stagingOf.ends]
      exact plan.switched_holds.2.trans long
    · rw [db]
      exact OverlayMap.clear_inside _ _
  cases halted with
  | staging failed db broken =>
      obtain ⟨effects, issued, below⟩ := broken.bounded marker sourceEnd
      exact stay issued below (dead db)
  | staged staging writes panicked overflow passed db issued =>
      refine stay issued (fun e member => plan.uptoSwitched_below bounded.options writes e
        (List.mem_append_left _ member)) fun _ => ?_
      refine (bounded.anchored healthy).grown (by rw [db]) (by rw [db]) ?_
      rw [issued.file, Move.uptoStaged_apply writes]
      exact (File.le_write_len _ _ _).trans (File.le_write_len _ _ _)
  | switching staging effects writes failed next db part issued =>
      refine stay issued (List.forall_mem_append.mpr ⟨fun e member =>
        plan.uptoSwitched_below bounded.options writes e (List.mem_append_left _ member), ?_⟩) (dead db)
      rcases part with torn | rfl
      · exact torn.below (page _ _)
      · exact fun e member => plan.uptoSwitched_below bounded.options writes e
          (List.mem_append_right _ member)
  | moving staging part writes stopped next db within issued =>
      refine stay issued (List.forall_mem_append.mpr ⟨plan.uptoSwitched_below bounded.options writes,
        fun e member => (within e member).below destinationEnd⟩) fun _ => onStaging db ?_
      rw [issued.file, Effect.applyAll_append, Move.uptoSwitched_apply writes]
      exact (Effect.applyAll_agrees within _).le_len
  | settling staging final effects wrote failed next last db part issued =>
      refine stay issued (List.forall_mem_append.mpr ⟨fun e member =>
        plan.effects_below bounded.options wrote e ?_, part.below (page _ _)⟩) (dead db)
      exact List.mem_append_left _ (List.mem_append_left _ (List.mem_append_left _ member))
  | doubling staging final effects wrote failed next last small db part issued =>
      refine stay issued (List.forall_mem_append.mpr ⟨fun e member =>
        plan.effects_below bounded.options wrote e ?_, part.below (page _ _)⟩) (dead db)
      exact List.mem_append_left _ (List.mem_append_left _ member)
  | settled staging final wrote panicked overflow passed next last db issued =>
      refine stay issued (fun e member => plan.effects_below bounded.options wrote e
        (List.mem_append_left _ (List.mem_append_left _ member))) fun _ => onStaging db ?_
      rw [issued.file, Move.uptoSettled_apply wrote]
      exact (File.le_write_len _ _ _).trans ((File.le_write_len _ _ _).trans (File.le_write_len _ _ _))
  | cutting staging final effects wrote failed next last small db part issued =>
      refine stay issued (List.forall_mem_append.mpr ⟨fun e member =>
        plan.effects_below bounded.options wrote e (List.mem_append_left _ member), ?_⟩) ?_
      · rcases part with rfl | rfl | rfl
        · exact List.forall_mem_nil _
        · exact fun e member => plan.effects_below bounded.options wrote e
            (List.mem_append_right _ (List.mem_append_left _ member))
        · exact fun e member => plan.effects_below bounded.options wrote e
            (List.mem_append_right _ member)
      · obtain ⟨detached, db⟩ := db
        intro state
        rw [db] at state
        cases state

theorem Move.Finished.stays (bounded : h.Bounded limit) (plan : m.For C P h entries slots)
    (finished : m.Finished entries slots h h') : h.Stays limit h' := by
  obtain ⟨staging, final, wrote, issued⟩ := finished.issued
  have disk := issued.bounded_of (plan.effects_below bounded.options wrote)
  refine ⟨disk, ?_, bounded.keeps disk, fun _ => ⟨?_, ?_⟩⟩
  · rw [finished.db]
    exact bounded.options
  · rw [finished.db, issued.file, Move.effects_apply wrote]
    show m.final.root.baseOffset + m.final.root.baseSize ≤ m.final.root.logStart
    rw [plan.finalOf.size, plan.finalOf.ends]
  · rw [finished.db]
    exact OverlayMap.clear_inside _ _

/-- Entries that are too large for a Base: the staging write is refused and cut back. -/
theorem wp_compactFile_invalid (bounded : h.Bounded limit)
    (yields : Yields RawEntries.feed P (h.db.iterRaw C) entries)
    (enough : entries.length < RawEntries.feed.bound (h.db.iterRaw C))
    (count : baseSlotCount entries.length = .ok slots)
    (stable : ∀ hi g, h.disk.file.AgreesOutside h.disk.file.len hi g → P g)
    (invalid : ¬∀ entry ∈ entries, ValidEntry entry) :
    wp (Database.compactFile C entries.length (segmentSize slots entries))
      (fun _ h' => h.Stays limit h') (fun _ h' => h.Stays limit h') h := by
  have same : h.Grown limit h := (Disk.Issued.refl h.disk).grown
  refine wp_bind (Db.wp_io (Io.wp_seekEnd ?_ fun _ _ =>
    (same.trans (Disk.issued_tick h.disk).grown).stays bounded))
  have seeked := Disk.issued_seek h.disk h.disk.file.len
  have grown1 : h.Grown limit { h with disk := { h.disk.tick with position := h.disk.file.len } } :=
    seeked.grown
  refine wp_bind (wp_lift (fun plan planned => ?_) fun _ _ => grown1.stays bounded)
  obtain ⟨rfl, word⟩ := compactPlan_eq_ok.mp planned
  have ticked := seeked.trans (Disk.issued_tick _)
  refine wp_bind (Database.wp_ensureCapacity (fun room => ?_) fun _ _ =>
    (ticked.grown).stays bounded)
  dsimp only at room
  rw [bounded.options, show ({ h.disk.tick with position := h.disk.file.len } : Disk).file =
    h.disk.file from rfl] at room
  generalize is : Disk.tick { h.disk.tick with position := h.disk.file.len } = d1 at ticked
  have position1 : d1.position = h.disk.file.len := by rw [← is]; rfl
  refine wp_bind (wp_mono (wp_stageBase (h := { h with disk := d1 }) position1
    (by dsimp only; omega) rfl word yields enough count fun g agrees => stable _ g
      (ticked.kept ▸ agrees)) ?_ ?_)
  · rintro _ h2 ⟨data, staging, isBase, -⟩
    exact absurd isBase.valid invalid
  · rintro e h2 ⟨-, db, broken⟩
    have disk : h.disk.Bounded limit.toNat h2.disk :=
      ticked.bounded.trans (broken.bounded (by dsimp only; omega) (by dsimp only; omega))
    refine ⟨disk, ?_, bounded.keeps disk, fun state => ?_⟩
    · rw [db]
      exact bounded.options
    · rw [db] at state
      cases state

/-- A handle reads the same as long as nothing in front of the end of its file changes. -/
theorem Handle.Anchored.steady (anchored : h.Anchored) {hi : Nat} {g : File}
    (agrees : h.disk.file.AgreesOutside h.disk.file.len hi g) :
    (h.db.iterRaw C).base.mapping.deref g = (h.db.iterRaw C).base.mapping.deref h.disk.file ∧
      (h.db.iterRaw C).overlay.log g = (h.db.iterRaw C).overlay.log h.disk.file :=
  ⟨anchored.base.deref agrees, anchored.overlay.log agrees⟩

theorem wp_compactFile_bounded {liveLen size : Nat} (bounded : h.Bounded limit)
    (healthy : h.db.state = .healthy)
    (measured : measureBaseIter RawEntries.feed h.disk.file (h.db.iterRaw C) = .ok (liveLen, size)) :
    wp (Database.compactFile C liveLen size)
      (fun _ h' => h.Stays limit h') (fun _ h' => h.Stays limit h') h := by
  obtain ⟨_, first, -⟩ := bind_eq_ok.mp measured
  obtain ⟨entries, yields, enough⟩ := yields_of_measured first fun _ reads => reads
  have stable : ∀ hi g, h.disk.file.AgreesOutside h.disk.file.len hi g →
      (h.db.iterRaw C).base.mapping.deref g = (h.db.iterRaw C).base.mapping.deref h.disk.file ∧
        (h.db.iterRaw C).overlay.log g = (h.db.iterRaw C).overlay.log h.disk.file :=
    fun hi g agrees => (bounded.anchored healthy).steady agrees
  rcases measureBaseIter_spec yields ⟨rfl, rfl⟩ enough with ⟨_, refused, -⟩ | ⟨slots, count, small, ran⟩
  · cases measured.symm.trans refused
  obtain ⟨rfl, rfl⟩ := Prod.mk.inj (Except.ok.inj (measured.symm.trans ran))
  by_cases valid : ∀ entry ∈ entries, ValidEntry entry
  swap
  · exact wp_compactFile_invalid bounded yields enough count stable valid
  by_cases room : max (h.disk.file.len + logHeaderSize)
      (dataStart + segmentSize slots entries + logHeaderSize) + segmentSize slots entries ≤
        h.db.options.maxDatabaseBytes.toNat
  swap
  · exact wp_mono (wp_compactFile_refused (Nat.not_le.mp room) (.refl h.disk)) (fun _ _ => False.elim)
      fun _ h' stopped => Handle.Grown.stays ⟨stopped.2.1, stopped.2.2.bounded, by
        rw [stopped.2.2.kept]⟩ bounded
  have word := h.db.options.maxDatabaseBytes.toNat_lt
  have dataSize : baseHeader + slots * slotSize + totalSize entries ≤ segmentSize slots entries := by
    unfold segmentSize
    omega
  generalize sourceIs : max (h.disk.file.len + logHeaderSize)
    (dataStart + segmentSize slots entries + logHeaderSize) = source at room
  obtain ⟨data, isBase⟩ : ∃ data, IsBase C source entries slots data :=
    exists_isBase C count valid (by omega) small
  obtain ⟨data', isBase'⟩ : ∃ data, IsBase C dataStart entries slots data :=
    exists_isBase C count valid (by omega) small
  have offset : (placedAt (h.db.base.generation + 1) source entries slots data).root.baseOffset =
      source := placedAt_baseOffset (by omega)
  let m : Move := ⟨h.disk.file.len, placedAt (h.db.base.generation + 1) source entries slots data,
    placedAt (h.db.base.generation + 1 + 1) dataStart entries slots data'⟩
  have plan : m.For C _ h entries slots :=
    { oldEnd := rfl
      yields := yields
      enough := enough
      count := count
      stagingBase := by
        show IsBase C (placedAt _ source entries slots data).root.baseOffset _ _ _
        rw [offset]
        exact isBase
      finalBase := isBase'
      staging := by
        show _ = placedAt _ (max (h.disk.file.len + logHeaderSize) _) entries slots data
        rw [sourceIs]
      final := rfl
      room := by
        show max (h.disk.file.len + logHeaderSize) _ + _ ≤ _
        rw [sourceIs]
        exact room
      stable := fun g agrees => stable _ g agrees }
  refine wp_mono (wp_compactFile plan (.refl h.disk) (refl_of Disk.Passed h.disk)) ?_ ?_
  · exact fun _ h' finished => finished.stays bounded plan
  · rintro e h' (⟨-, db, issued⟩ | halted)
    · exact Handle.Grown.stays ⟨db, issued.bounded, by rw [issued.kept]⟩ bounded
    · exact halted.stays bounded healthy plan

theorem wp_compact_bounded (bounded : h.Bounded limit) :
    wp (Database.compact C) (fun _ h' => h.Stays limit h') (fun _ h' => h.Stays limit h') h := by
  have same : h.Grown limit h := (Disk.Issued.refl h.disk).grown
  unfold Database.compact
  refine wp_bind (Database.wp_ensureWritable (fun healthy => ?_) fun _ => same.stays bounded)
  refine wp_bind (wp_state ?_)
  split
  · exact wp_stop (same.stays bounded)
  -- `verify` only changes what the handle knows to be verified.
  have verified : wp (Database.verify C) (fun _ h₁ => ∃ v, h₁ = h.withVerifier v)
      (fun _ h₁ => ∃ v, h₁ = h.withVerifier v) h := by
    refine wp_bind (Database.wp_ensureAvailable (fun _ => ?_) fun _ => ⟨h.db.base.verifier, rfl⟩)
    refine wp_bind (wp_state (wp_zoom ?_))
    unfold wp
    split <;> exact ⟨_, rfl⟩
  have keep : ∀ v, h.Stays limit (h.withVerifier v) := fun v =>
    ⟨(Disk.Issued.refl h.disk).bounded, bounded.options, bounded.short, fun _ =>
      (bounded.anchored healthy).grown rfl rfl le_rfl⟩
  refine wp_bind (wp_mono verified ?_ ?_)
  swap
  · rintro _ _ ⟨v, rfl⟩
    exact keep v
  rintro _ _ ⟨v, rfl⟩
  have compactness : wp Database.alreadyCompact
      (fun _ h₂ => h₂.db = (h.withVerifier v).db ∧ Disk.Issued [] h.disk h₂.disk)
      (fun _ h₂ => h₂.db = (h.withVerifier v).db ∧ Disk.Issued [] h.disk h₂.disk) (h.withVerifier v) := by
    refine wp_bind (wp_state ?_)
    dsimp only
    split
    · exact wp_bind (Db.wp_io (Io.wp_len (wp_pure ⟨rfl, Disk.issued_tick _⟩) fun _ _ =>
        ⟨rfl, Disk.issued_tick _⟩))
    · exact wp_pure ⟨rfl, .refl _⟩
  have go : ∀ {h₂ : Handle}, h₂.db = (h.withVerifier v).db → Disk.Issued [] h.disk h₂.disk →
      h.Stays limit h₂ := fun db issued =>
    ⟨issued.bounded, by rw [db]; exact bounded.options, by rw [issued.kept]; exact bounded.short,
      fun _ => (bounded.anchored healthy).grown (by rw [db]; rfl) (by rw [db]; rfl) (by rw [issued.kept])⟩
  refine wp_bind (wp_mono compactness ?_ fun _ h₂ stopped => go stopped.1 stopped.2)
  rintro done h₂ ⟨db, issued⟩
  have stays := go db issued
  cases done with
  | true => exact wp_pure stays
  | false =>
      refine wp_bind (wp_state (wp_bind (wp_lift (fun sizes measured => ?_) fun _ _ => stays)))
      have state : h₂.db.state = .healthy := by
        rw [db]
        exact healthy
      exact wp_mono (wp_compactFile_bounded stays.handle state measured)
        (fun _ _ post => ⟨stays.disk.trans post.disk, post.handle⟩)
        fun _ _ post => ⟨stays.disk.trans post.disk, post.handle⟩

end Compacting

/-! ## Runs -/

/-- The handles that `open` or `create` returned with this limit, and what later calls left of
them, whether these returned, failed or panicked. -/
inductive FileRun (C : Crates) (limit : UInt64) : Handle → Prop
  | opened {options : DatabaseOptions} {f : File} {faults : List Fault} {db : Database} {d : Disk}
      (limited : options.maxDatabaseBytes = limit)
      (ran : openWithOptions C options (Disk.ofFile f faults) = (.ok db, d)) : FileRun C limit ⟨db, d⟩
  | created {options : DatabaseOptions} {faults : List Fault} {db : Database} {d : Disk}
      (limited : options.maxDatabaseBytes = limit)
      (ran : createWithOptions C options (Disk.ofFile File.empty faults) = (.ok db, d)) :
      FileRun C limit ⟨db, d⟩
  | commit {h : Handle} {txn : WriteTransaction} {ops : List Operation} (before : FileRun C limit h)
      (faults : List Fault) (staging : Staging false txn ops) :
      FileRun C limit
        (Database.commitStagedWith C txn.staged txn.valueChecksums (h.afresh faults)).2
  | compact {h : Handle} (before : FileRun C limit h) (faults : List Fault) :
      FileRun C limit (Database.compact C (h.afresh faults)).2
  | read {h : Handle} (before : FileRun C limit h) (query : Query) : FileRun C limit (query.after C h)
  | snapshot {h : Handle} (before : FileRun C limit h) : FileRun C limit (Database.snapshot h).2
  | dropSnapshot {h : Handle} (before : FileRun C limit h) :
      FileRun C limit { h with db := { h.db with snapshotGuard := h.db.snapshotGuard - 1 } }

section Runs

variable {C : Crates} {limit : UInt64} {h h' : Handle}

/-- A read leaves a handle as it was, up to what it has verified. -/
theorem Query.after_eq (query : Query) (h : Handle) : ∃ v, query.after C h = h.withVerifier v := by
  have verifying : ∀ {α : Type} (act : Handle → Prog SegmentVerifier Stop α),
      ∃ v, ((do Database.ensureAvailable; let h ← Prog.state; Db.verifying (act h)) h : _ × Handle).2 =
        h.withVerifier v := by
    intro α act
    refine @wp_final _ _ _ _ _ (fun h' : Handle => ∃ v, h' = h.withVerifier v) ?_
    refine wp_bind (Database.wp_ensureAvailable (fun _ => ?_) fun _ => ⟨h.db.base.verifier, rfl⟩)
    refine wp_bind (wp_state (wp_zoom ?_))
    unfold wp
    split <;> exact ⟨_, rfl⟩
  have lifting : ∀ {α : Type} (act : Handle → Res α),
      ((do Database.ensureAvailable; let h ← Prog.state; Prog.lift (act h)) h : _ × Handle).2 = h := by
    intro α act
    refine @wp_final _ _ _ _ _ (fun h' : Handle => h' = h) ?_
    refine wp_bind (Database.wp_ensureAvailable (fun _ => ?_) fun _ => rfl)
    exact wp_bind (wp_state (wp_lift (fun _ _ => rfl) fun _ _ => rfl))
  have returning : ∀ {α β : Type} (act : Db α) (f : α → β), ((do return f (← act)) h : _ × Handle).2 =
      (act h).2 := by
    intro α β act f
    show ((act >>= fun a => pure (f a)) h).2 = _
    rw [bind_run]
    cases ran : act h with
    | mk result h' => cases result <;> rfl
  cases query with
  | get key => exact verifying _
  | containsKey key =>
      obtain ⟨v, is⟩ := verifying fun h => h.db.readView.get C h.disk.file key
      exact ⟨v, (returning (Database.get C key) _).trans is⟩
  | iter => exact verifying _
  | len => exact ⟨h.db.base.verifier, lifting _⟩
  | isEmpty =>
      exact ⟨h.db.base.verifier, (returning (Database.len C) _).trans
        (lifting fun h => (h.db.iterRaw C).rawLen h.disk.file)⟩
  | verify => exact verifying _

theorem Handle.Bounded.afresh (bounded : h.Bounded limit) (faults : List Fault) :
    (h.afresh faults).Bounded limit :=
  ⟨bounded.options, bounded.short, fun state => (bounded.anchored state).grown rfl rfl le_rfl⟩

/-- What only concerns the memory of a handle leaves it bounded. -/
theorem Handle.Bounded.same (bounded : h.Bounded limit)
    (options : h'.db.options = h.db.options) (state : h'.db.state = h.db.state)
    (base : h'.db.base.mapping = h.db.base.mapping) (overlay : h'.db.overlay = h.db.overlay)
    (disk : h'.disk = h.disk) : h'.Bounded limit := by
  refine ⟨options ▸ bounded.options, disk ▸ bounded.short, fun healthy => ?_⟩
  exact (bounded.anchored (state ▸ healthy)).grown base (by rw [overlay]) (by rw [disk])

theorem FileRun.bounded (run : FileRun C limit h) : h.Bounded limit := by
  induction run with
  | opened limited ran =>
      subst limited
      exact (wp_ok (wp_openWithOptions_bounded _) ran).2.1
  | created limited ran =>
      subst limited
      exact (wp_ok (wp_createWithOptions_bounded _) ran).1
  | @commit h txn ops before faults staging bounded =>
      exact (wp_final (wp_commitStagedWith_bounded staging.coherent (bounded.afresh faults))).handle
  | compact before faults bounded =>
      exact (wp_final (wp_compact_bounded (bounded.afresh faults))).handle
  | read before query bounded =>
      obtain ⟨v, is⟩ := query.after_eq _
      rw [is]
      exact bounded.same rfl rfl rfl rfl rfl
  | @snapshot h before bounded =>
      refine wp_final (P := fun h' => Handle.Bounded limit h') ?_
      refine wp_bind (Database.wp_ensureAvailable (fun _ => ?_) fun _ => bounded)
      exact wp_bind (wp_state (wp_bind (wp_modify (wp_pure (bounded.same rfl rfl rfl rfl rfl)))))
  | dropSnapshot before bounded => exact bounded.same rfl rfl rfl rfl rfl

end Runs

/-! ## The predictions -/

/-- What the measure of a feed says about the Base that is written from it: the entries are
counted and the size is exact; only a Base that fits no word is refused. -/
def MeasuresExactly {ι : Type} (C : Crates) (feed : Feed ι) (i : ι) (file : File)
    (P : File → Prop) (entries : List Entry) : Prop :=
  (∃ error, measureBaseIter feed file i = fail error ∧ error.TooLarge ∧
    ∀ slots, baseSlotCount entries.length = .ok slots → 2 ^ 64 ≤ segmentSize slots entries) ∨
  ∃ size, measureBaseIter feed file i = .ok (entries.length, size) ∧
    ∀ start d written d', start + size < 2 ^ 64 →
      (∀ g, d.file.AgreesOutside start (start + size) g → P g) →
      writeBaseWithMetadataAt C feed start entries.length i d = (.ok written, d') →
      written.size = size ∧ ∃ bytes, bytes.length = size ∧ d'.file = d.file.write start bytes

theorem measuresExactly {ι : Type} {C : Crates} {feed : Feed ι} {i : ι} {file : File}
    {P : File → Prop} {entries : List Entry} (yields : Yields feed P i entries) (reads : P file)
    (enough : entries.length < feed.bound i) : MeasuresExactly C feed i file P entries := by
  rcases measureBaseIter_spec yields reads enough with refused | ⟨slots, count, small, ran⟩
  · exact .inl refused
  refine .inr ⟨_, ran, fun start d written d' word stable wrote => ?_⟩
  have dataSize : baseHeader + slots * slotSize + totalSize entries ≤ segmentSize slots entries := by
    unfold segmentSize
    omega
  have ready : Ready feed P d start entries.length i entries slots :=
    ⟨yields, rfl, count, by omega, small, enough, fun g agrees =>
      stable g (agrees.mono le_rfl (by omega))⟩
  obtain ⟨entries', slots', data, isBase, -, rfl, file', -, only⟩ :=
    wp_ok (wp_writeBaseWithMetadataAt (P := P) d) wrote
  cases only _ _ ready
  cases Except.ok.inj (count.symm.trans isBase.count)
  exact ⟨isBase.segmentSize, segmentBytes data, isBase.segmentSize, file'⟩

/-! ## The limit -/

/-- At no point of a run does the storage exceed `max_database_bytes`. -/
theorem size_limit_always (C : Crates) (limit : UInt64) :
    -- Creating a file, with any calls failing.
    (∀ options faults k n, options.maxDatabaseBytes = limit →
      (Effect.crashImage File.empty
        (createWithOptions C options (Disk.ofFile File.empty faults)).2.trace k n).len ≤ limit.toNat) ∧
    -- Opening any file: one that is too long is refused and left alone.
    (∀ options f faults, options.maxDatabaseBytes = limit →
      (f.len ≤ limit.toNat → ∀ k n, (Effect.crashImage f
        (openWithOptions C options (Disk.ofFile f faults)).2.trace k n).len ≤ limit.toNat) ∧
      (limit.toNat < f.len →
        (∃ e, (openWithOptions C options (Disk.ofFile f faults)).1 = .error e) ∧
        (openWithOptions C options (Disk.ofFile f faults)).2.trace = [])) ∧
    -- Every commit and every compaction of every run on a file.
    (∀ h, FileRun C limit h → h.disk.file.len ≤ limit.toNat ∧
      (∀ txn ops faults k n, Staging false txn ops → (Effect.crashImage h.disk.file
        (Database.commitStagedWith C txn.staged txn.valueChecksums
          (h.afresh faults)).2.disk.trace k n).len ≤ limit.toNat) ∧
      ∀ faults k n, (Effect.crashImage h.disk.file
        (Database.compact C (h.afresh faults)).2.disk.trace k n).len ≤ limit.toNat) ∧
    -- Every length that the storage of a memory database ever has.
    (∀ options, options.maxDatabaseBytes = limit →
      (∀ faults, ∀ len ∈ (memoryWithOptions C options ⟨⟨.new, faults⟩, []⟩).2.lengths,
        len ≤ limit.toNat) ∧
      ∀ m map, MemoryRun C options m map → (∀ txn ops faults, Staging true txn ops →
        ∀ len ∈ (MemoryDatabase.commitStagedMemory C txn.staged (m.afresh faults)).2.ram.lengths,
          len ≤ limit.toNat) ∧
        ∀ faults, ∀ len ∈ (MemoryDatabase.compact C (m.afresh faults)).2.ram.lengths,
          len ≤ limit.toNat) ∧
    -- The predicted length of a record, on any writer and with any checksums passed along.
    (∀ staged known payloadLen, batchPayloadLen staged = .ok payloadLen →
      ∃ chunks : List Bytes, chunks.flatten.length = logHeaderSize + payloadLen ∧
        ∀ write, writeBatchRecordInner write staged known = chunks.forM write) ∧
    -- The predicted size of a Base, from any source of entries.
    ∀ (ι : Type) (feed : Feed ι) (i : ι) (file : File) (P : File → Prop) (entries : List Entry),
      Yields feed P i entries → P file → entries.length < feed.bound i →
      MeasuresExactly C feed i file P entries := by
  refine ⟨?_, ?_, ?_, ?_, fun staged known payloadLen => writeBatchRecordInner_chunks known,
    fun ι feed i file P entries => measuresExactly⟩
  · rintro options faults k n rfl
    have created : Disk.Bounded options.maxDatabaseBytes.toNat (Disk.ofFile File.empty faults)
        (createWithOptions C options (Disk.ofFile File.empty faults)).2 :=
      wp_final (wp_mono (wp_createWithOptions_bounded _) (fun _ _ => And.right) fun _ _ => id)
    exact (created.keeps (Nat.zero_le _)).crash (d := Disk.ofFile File.empty faults) k n
  · rintro options f faults rfl
    have spec := @wp_openWithOptions_bounded C options (Disk.ofFile f faults)
    refine ⟨fun short k n => ?_, fun long => ?_⟩
    · have opened := wp_final (wp_mono spec (fun _ _ post => post.2.2) fun _ _ => And.left)
      exact (opened.keeps short).crash (d := Disk.ofFile f faults) k n
    · cases ran : openWithOptions C options (Disk.ofFile f faults) with
      | mk result d' =>
          cases result with
          | ok db => exact absurd (wp_ok spec ran).1 (Nat.not_le.mpr long)
          | error e => exact ⟨⟨e, rfl⟩, ((wp_error spec ran).2 long).trace⟩
  · intro h run
    have bounded := run.bounded
    refine ⟨bounded.short, fun txn ops faults k n staging => ?_, fun faults k n => ?_⟩
    · have stays := wp_final (wp_commitStagedWith_bounded (C := C) staging.coherent (bounded.afresh faults))
      exact (stays.disk.keeps bounded.short).crash k n
    · have stays := wp_final (wp_compact_bounded (C := C) (bounded.afresh faults))
      exact (stays.disk.keeps bounded.short).crash k n
  · rintro options rfl
    refine ⟨fun faults => ?_, fun m map run => ?_⟩
    · refine wp_final (P := fun ram => ∀ len ∈ ram.lengths, len ≤ options.maxDatabaseBytes.toNat)
        (wp_mono (wp_memoryWithOptions C options faults) ?_ fun _ _ stopped => stopped.2.1)
      rintro db ram ⟨resides, rfl, -⟩
      exact resides.within
    · obtain ⟨rfl, c, resides, -⟩ := run.resides
      have within : ∀ {m' : MemoryDatabase} {c' : Contents C}, c'.Resides m' →
          SameConfig m.db m'.db → ∀ len ∈ m'.ram.lengths, len ≤ m.db.options.maxDatabaseBytes.toNat :=
        fun resides' config => config.options ▸ resides'.within
      refine ⟨fun txn ops faults staging => ?_, fun faults => ?_⟩
      · refine wp_final (P := fun m' => ∀ len ∈ m'.ram.lengths,
          len ≤ m.db.options.maxDatabaseBytes.toNat)
          (wp_mono (MemoryDatabase.wp_commitStagedMemory (resides.afresh faults)
            ⟨ops, staging.coherent⟩) ?_ ?_)
        · rintro _ m' ⟨-, ⟨-, rfl⟩ | ⟨batch, -, -, done⟩⟩
          · exact resides.within
          · exact within done.resides done.config
        · rintro e m' ⟨rfl, -⟩
          exact resides.within
      · refine wp_final (P := fun m' => ∀ len ∈ m'.ram.lengths,
          len ≤ m.db.options.maxDatabaseBytes.toNat)
          (wp_mono (MemoryDatabase.wp_compactInMemory (resides.afresh faults)) ?_ ?_)
        · rintro _ m' ⟨-, -, c', done⟩
          exact within done.resides done.config
        · intro e m' halted
          exact within halted.resides halted.config

/-- A database with one entry that is compacted. -/
theorem size_limit_always_put :
    ∃ h txn, Staging false txn [([1], some [2])] ∧
      FileRun zeroHash DatabaseOptions.default.maxDatabaseBytes h ∧
      h.disk.file.len ≤ DatabaseOptions.default.maxDatabaseBytes.toNat ∧
      ∀ k n, (Effect.crashImage h.disk.file
        (Database.compact zeroHash (h.afresh [])).2.disk.trace k n).len ≤
          DatabaseOptions.default.maxDatabaseBytes.toNat := by
  obtain ⟨db, d, ran, healthy, optionsIs, -⟩ := @create_ok .default zeroHash (by decide)
  obtain ⟨h', batch, committed, -⟩ :=
    commit_put (healthy.afresh []) (List.forall_mem_nil _) optionsIs
  have run : FileRun zeroHash DatabaseOptions.default.maxDatabaseBytes h' := by
    have new : FileRun zeroHash DatabaseOptions.default.maxDatabaseBytes ⟨db, d⟩ := .created rfl ran
    have put := new.commit [] firstPut_staging
    rwa [committed] at put
  obtain ⟨short, -, compacts⟩ :=
    (size_limit_always zeroHash DatabaseOptions.default.maxDatabaseBytes).2.2.1 _ run
  exact ⟨h', firstPut, firstPut_staging, run, short, fun k n => compacts [] k n⟩

end Lkv
