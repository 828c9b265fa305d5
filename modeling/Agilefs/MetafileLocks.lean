import Agilefs.FuseRead

/-!
# Locks on the metafile

`read_lock_metafile` and `write_lock_metafile` lock the entries of the blocks that a request
works on, in terms of its offset and length. `readsEntry_iff` and `writesEntry_iff` : the
loops of `fuse_read` and `fuse_write` use the entries of the blocks with a byte of the request,
and each of them in some execution. The number of these depends on both ends of the request,
the length of the lock on the length of the request alone.

`covers_iff` : the lock covers the entries, and requests with a common block have locks that
overlap, if and only if the request fits in as many blocks as are locked.
-/

namespace Agilefs

open CInt Posix Function ByteFile Client

/-! ## The locked range -/

/-- The bytes from `offset` on of a request, whose offsets are positive `off_t`s. -/
structure Request where
  offset : ℤ
  len : ℕ
  nonneg : 0 ≤ offset
  pos : 0 < len
  fits : offset + len < 2 ^ 63

namespace Request

/-- `offset / g_block_size * hash_size + init_offset`. -/
def lockStart (q : Request) : ℤ := q.offset.tdiv 4096 * 16 + 16

/-- `(len + g_block_size) / g_block_size * hash_size`. The length is a `size_t`. -/
def lockLen (q : Request) : ℤ := int64 (uint64 (q.len + 4096) / 4096 * 16)

/-- The lock has the byte. -/
def Locks (q : Request) (x : ℤ) : Prop := q.lockStart ≤ x ∧ x < q.lockStart + q.lockLen

/-- A byte of the request is in the block. -/
def Touches (q : Request) (b : ℤ) : Prop :=
  ∃ x, q.offset ≤ x ∧ x < q.offset + q.len ∧ x / 4096 = b

/-- `fuse_read` reads the entry at this place of the metafile, for a file of some size and in some
state of the system. -/
def ReadsEntry (q : Request) (place : ℤ) : Prop :=
  ∃ (B C P : Type) (bc : BlockCache C) (st : BlockStore B) (store : B) (os : Os P) (io : Io)
    (fd stSize : ℤ) (r r' : ReadState C), -2 ^ 63 ≤ stSize ∧ stSize < 2 ^ 63 ∧ r.i = q.offset ∧
    Loop.Enters (fun r => r.ok && decide (r.i < readStop stSize q.offset q.len))
      (fun r => some (readBody bc st store os io fd q.len q.offset r)) r r' ∧
    entryOffset r'.i = place

/-- `fuse_write` reads and writes the entry at this place of the metafile, for some bytes and in
some state of the system. -/
def WritesEntry (q : Request) (place : ℤ) : Prop :=
  ∃ (B P : Type) (doHash : List UInt8 → Key) (st : BlockStore B) (io : Io) (fd : ℤ)
    (buf : List UInt8) (w w' : WriteState B P), buf.length = q.len ∧ w.i = q.offset ∧
    Loop.Enters (fun w => w.ok && decide (uint64 w.i < uint64 (q.offset + buf.length)))
      (writeBody doHash st io fd buf q.offset) w w' ∧
    entryOffset w'.i = place

variable {q q' : Request}

theorem lockStart_eq (q : Request) : q.lockStart = q.offset / 4096 * 16 + 16 := by
  rw [lockStart, Int.tdiv_eq_ediv_of_nonneg q.nonneg]

theorem lockLen_eq (q : Request) : q.lockLen = (q.len / 4096 + 1) * 16 := by
  have hnonneg := q.nonneg
  have hfits := q.fits
  rw [lockLen, uint64_of_range (by omega) (by omega), int64_of_range (by omega) (by omega)]
  omega

/-- The blocks from the first to the last. -/
theorem touches_iff {b : ℤ} :
    q.Touches b ↔ q.offset / 4096 ≤ b ∧ b ≤ (q.offset + q.len - 1) / 4096 := by
  have hpos := q.pos
  constructor
  · rintro ⟨x, hle, hlt, rfl⟩
    omega
  · rintro ⟨hle, hlt⟩
    exact ⟨max q.offset (b * 4096), by omega, by omega, by omega⟩

/-- The lock has the entries of all blocks of the request if and only if the two parts of a block
at its ends are no more than one block. -/
theorem locks_iff : (∀ b, q.Touches b → q.lockStart ≤ b * 16 + 16 ∧
      b * 16 + 16 + 16 ≤ q.lockStart + q.lockLen) ↔
    q.offset % 4096 + q.len % 4096 ≤ 4096 := by
  have hpos := q.pos
  simp only [touches_iff, lockStart_eq, lockLen_eq]
  constructor
  · intro h
    have hlast := (h ((q.offset + q.len - 1) / 4096) (by omega)).2
    omega
  · intro h b hb
    omega

/-! ## The entries used -/

/-- A loop that goes from block to block runs an iteration in each. -/
theorem enters_block {S : Type*} {cond : S → Bool} {body : S → Option S} {I : S → Prop}
    {f : S → ℤ} {stop : ℤ} (hcond : ∀ s, I s → f s < stop → cond s = true)
    (hbody : ∀ s, I s → f s < stop →
      ∃ s', body s = some s' ∧ I s' ∧ f s' = f s + chunkLen stop (f s)) :
    ∀ (n : ℕ) (s : S), I s → f s < stop → f s / 4096 + n ≤ (stop - 1) / 4096 →
      ∃ s', Loop.Enters cond body s s' ∧ I s' ∧ f s' / 4096 = f s / 4096 + n
  | 0, s, hs, hlt, _ => ⟨s, .here (hcond s hs hlt), hs, by omega⟩
  | n + 1, s, hs, hlt, hn => by
    obtain ⟨s₁, hb, hs₁, hat⟩ := hbody s hs hlt
    unfold chunkLen at hat
    obtain ⟨s', h, hs', hblock⟩ := enters_block hcond hbody n s₁ hs₁ (by omega) (by omega)
    exact ⟨s', .next (hcond s hs hlt) hb h, hs', by omega⟩

theorem readBody_i {B C P : Type*} {bc : BlockCache C} {st : BlockStore B} {store : B} {os : Os P}
    {io : Io} {fd : ℤ} {r : ReadState C} (hle : q.offset ≤ r.i) (hlt : r.i < q.offset + q.len) :
    (readBody bc st store os io fd q.len q.offset r).i = r.i ∨
      (readBody bc st store os io fd q.len q.offset r).i =
        r.i + chunkLen (q.offset + q.len) r.i := by
  have hnonneg := q.nonneg
  have hfits := q.fits
  have hnext : r.i + min (int64 (q.len + q.offset - r.i)) (4096 - r.i % 4096) =
      r.i + chunkLen (q.offset + q.len) r.i := by
    rw [int64_of_range (by omega) (by omega), chunkLen]
    omega
  unfold readBody
  split
  · exact Or.inl rfl
  · refine Or.inr ?_
    simp only [hnext]
    split_ifs <;> rfl

theorem writeBody_i {B P : Type*} {doHash : List UInt8 → Key} {st : BlockStore B} {io : Io}
    {fd : ℤ} {buf : List UInt8} {w w' : WriteState B P} (hbuf : buf.length = q.len)
    (hle : q.offset ≤ w.i) (hlt : w.i < q.offset + q.len)
    (hbody : writeBody doHash st io fd buf q.offset w = some w') :
    w'.i = w.i ∨ w'.i = w.i + chunkLen (q.offset + q.len) w.i := by
  have hnonneg := q.nonneg
  have hfits := q.fits
  have hnext : w.i + min (int64 (buf.length + q.offset - w.i)) (4096 - w.i % 4096) =
      w.i + chunkLen (q.offset + q.len) w.i := by
    rw [hbuf, int64_of_range (by omega) (by omega), chunkLen]
    omega
  obtain ⟨⟨store, ret⟩, -, hrest⟩ := Option.bind_eq_some_iff.1 hbody
  simp only at hrest
  split_ifs at hrest with hres
  · exact Or.inl (by rw [← Option.some.inj hrest])
  · obtain ⟨⟨store', ret'⟩, -, rfl⟩ := Option.map_eq_some_iff.1 hrest
    split_ifs
    · exact Or.inl rfl
    · exact Or.inr hnext

/-- The entry of byte `i` is the one of its block. -/
theorem entryOffset_block {i : ℤ} (h : 0 ≤ i) : entryOffset i = i / 4096 * 16 + 16 := by
  rw [entryOffset, Int.tdiv_eq_ediv_of_nonneg h]

/-- Where a read ends, for a file of any size. -/
theorem readStop_le (q : Request) {stSize : ℤ} (h₁ : -2 ^ 63 ≤ stSize) (h₂ : stSize < 2 ^ 63) :
    readStop stSize q.offset q.len ≤ q.offset + q.len := by
  have hnonneg := q.nonneg
  have hfits := q.fits
  rw [readStop, uint64_of_range (x := q.offset + q.len) (by omega) (by omega),
    int64_of_range (by omega) (by omega)]
  split_ifs with hlt
  · unfold uint64 at hlt
    omega
  · exact le_rfl

theorem touches_of_readsEntry {place : ℤ} (h : q.ReadsEntry place) :
    ∃ b, q.Touches b ∧ b * 16 + 16 = place := by
  obtain ⟨B, C, P, bc, st, store, os, io, fd, stSize, r, r', h₁, h₂, hr, henters, rfl⟩ := h
  have hnonneg := q.nonneg
  have hpos := q.pos
  have hstop := q.readStop_le h₁ h₂
  obtain ⟨⟨hle, -⟩, hcond⟩ := henters.invariant
    (I := fun r => q.offset ≤ r.i ∧ r.i ≤ q.offset + q.len)
    (fun r r' hI hcond hr' => by
      rw [Bool.and_eq_true, decide_eq_true_eq] at hcond
      have hlt : r.i < q.offset + q.len := by omega
      have hnext := add_chunkLen_le hlt.le
      have hi : (readBody bc st store os io fd q.len q.offset r).i = r.i ∨
          (readBody bc st store os io fd q.len q.offset r).i =
            r.i + chunkLen (q.offset + q.len) r.i := readBody_i hI.1 hlt
      rw [Option.some.inj hr'] at hi
      omega)
    ⟨hr.ge, by omega⟩
  rw [Bool.and_eq_true, decide_eq_true_eq] at hcond
  exact ⟨r'.i / 4096, ⟨r'.i, hle, by omega, rfl⟩, (entryOffset_block (by omega)).symm⟩

theorem touches_of_writesEntry {place : ℤ} (h : q.WritesEntry place) :
    ∃ b, q.Touches b ∧ b * 16 + 16 = place := by
  obtain ⟨B, P, doHash, st, io, fd, buf, w, w', hbuf, hw, henters, rfl⟩ := h
  have hnonneg := q.nonneg
  have hpos := q.pos
  have hfits := q.fits
  have hcond_iff : ∀ i : ℤ, q.offset ≤ i → i ≤ q.offset + q.len →
      (uint64 i < uint64 (q.offset + buf.length) ↔ i < q.offset + q.len) := by
    intro i hle hstop
    rw [writeCond_iff (by omega) (by omega) (by omega), hbuf]
  obtain ⟨⟨hle, hstop⟩, hcond⟩ := henters.invariant
    (I := fun w => q.offset ≤ w.i ∧ w.i ≤ q.offset + q.len)
    (fun w w' hI hcond hw' => by
      rw [Bool.and_eq_true, decide_eq_true_eq, hcond_iff _ hI.1 hI.2] at hcond
      have hnext := add_chunkLen_le hcond.2.le
      have hi := writeBody_i hbuf hI.1 hcond.2 hw'
      omega)
    ⟨hw.ge, by omega⟩
  rw [Bool.and_eq_true, decide_eq_true_eq, hcond_iff _ hle hstop] at hcond
  exact ⟨w'.i / 4096, ⟨w'.i, hle, hcond.2, rfl⟩, (entryOffset_block (by omega)).symm⟩

/-- A system with one open file, whose descriptor is 0. -/
def oneFile : Os Unit := ⟨fun _ => none, fun _ => [], 1, fun _ => some ⟨0, 0⟩, 1⟩

/-- A store whose calls succeed. -/
def idleStore : BlockStore Unit :=
  ⟨fun _ _ _ _ => none, fun store _ _ => some (store, 0), fun store _ => some (store, 0)⟩

theorem exists_index {b : ℤ} (hb : q.Touches b) :
    ∃ n : ℕ, b = q.offset / 4096 + n ∧ q.offset / 4096 + n ≤ (q.offset + q.len - 1) / 4096 := by
  obtain ⟨hle, hge⟩ := touches_iff.1 hb
  exact ⟨(b - q.offset / 4096).toNat, by omega, by omega⟩

theorem readsEntry_of_touches {b : ℤ} (hb : q.Touches b) : q.ReadsEntry (b * 16 + 16) := by
  have hnonneg := q.nonneg
  have hpos := q.pos
  have hfits := q.fits
  have hstop : readStop (q.offset + q.len) q.offset q.len = q.offset + q.len :=
    readStop_of_le hnonneg le_rfl hfits
  have hino : oneFile.ino 0 = some 0 := rfl
  have hcond : ∀ r : ReadState Unit, (r.ok = true ∧ q.offset ≤ r.i) → r.i < q.offset + q.len →
      (r.ok && decide (r.i < readStop (q.offset + q.len) q.offset q.len)) = true := by
    intro r hI hlt
    rw [hI.1, hstop, Bool.true_and, decide_eq_true_eq]
    exact hlt
  have hbody : ∀ r : ReadState Unit, (r.ok = true ∧ q.offset ≤ r.i) → r.i < q.offset + q.len →
      ∃ r', some (readBody noCache idleStore () oneFile {} 0 q.len q.offset r) = some r' ∧
        (r'.ok = true ∧ q.offset ≤ r'.i) ∧
        r'.i = r.i + chunkLen (q.offset + q.len) r.i := by
    intro r hI hlt
    refine ⟨_, rfl, ?_⟩
    rw [readBody_eq hino hnonneg hfits noCache hI.2 hlt]
    simp only [noCache, if_true, true_and, and_true]
    omega
  obtain ⟨n, rfl, hn⟩ := exists_index hb
  obtain ⟨r', henters, ⟨-, hle⟩, hblock⟩ := enters_block hcond hbody n
    ⟨(), Key.zero, [], 0, q.offset, true⟩ ⟨rfl, le_rfl⟩ (by simp only; omega) hn
  refine ⟨Unit, Unit, Unit, noCache, idleStore, (), oneFile, {}, 0, q.offset + q.len, _, r',
    by omega, by omega, rfl, henters, ?_⟩
  rw [entryOffset_block (by omega), hblock]

theorem writesEntry_of_touches {b : ℤ} (hb : q.Touches b) : q.WritesEntry (b * 16 + 16) := by
  have hnonneg := q.nonneg
  have hpos := q.pos
  have hfits := q.fits
  obtain ⟨buf, hbuf⟩ : ∃ buf : List UInt8, buf.length = q.len :=
    ⟨List.replicate q.len 0, List.length_replicate⟩
  rw [← hbuf] at hpos hfits
  have hcond : ∀ w : WriteState Unit Unit,
      (w.ok = true ∧ w.os.ino 0 = some 0 ∧ q.offset ≤ w.i) → w.i < q.offset + buf.length →
      (w.ok && decide (uint64 w.i < uint64 (q.offset + buf.length))) = true := by
    intro w hI hlt
    rw [hI.1, Bool.true_and, decide_eq_true_eq, writeCond_iff (by omega) hfits hlt.le]
    exact hlt
  have hbody : ∀ w : WriteState Unit Unit,
      (w.ok = true ∧ w.os.ino 0 = some 0 ∧ q.offset ≤ w.i) → w.i < q.offset + buf.length →
      ∃ w', writeBody (fun _ => Key.zero) idleStore {} 0 buf q.offset w = some w' ∧
        (w'.ok = true ∧ w'.os.ino 0 = some 0 ∧ q.offset ≤ w'.i) ∧
        w'.i = w.i + chunkLen (q.offset + buf.length) w.i := by
    intro w ⟨hok, hino, hle⟩ hlt
    obtain ⟨w', hw'⟩ : ∃ w', writeBody (fun _ => Key.zero) idleStore {} 0 buf q.offset w =
        some w' := by
      simp only [writeBody, idleStore, Option.bind_some, Option.map_some, ne_eq,
        not_true_eq_false, if_false]
      split_ifs
      · exact ⟨_, rfl⟩
      · exact ⟨_, rfl⟩
    obtain ⟨_, _, store, _, ret', -, -, -, -, hput, hos, hok', hi⟩ :=
      writeBody_spec hino hnonneg hfits hle hlt hw'
    obtain ⟨-, rfl⟩ : store = w'.store ∧ 0 = ret' := by simpa [idleStore] using hput
    rw [if_pos rfl] at hi
    refine ⟨w', hw', ⟨by simpa using hok', by rw [hos]; exact hino, by omega⟩, hi⟩
  obtain ⟨n, rfl, hn⟩ := exists_index hb
  rw [← hbuf] at hn
  obtain ⟨w', henters, ⟨-, -, hle⟩, hblock⟩ := enters_block hcond hbody n
    ⟨oneFile, (), Key.zero, q.offset, true⟩ ⟨rfl, rfl, le_rfl⟩ (by simp only; omega) hn
  refine ⟨Unit, Unit, _, idleStore, {}, 0, buf, _, w', hbuf, rfl, henters, ?_⟩
  rw [entryOffset_block (by omega), hblock]

/-! ## What the locks cover -/

/-- `fuse_read` reads the entries of the blocks with a byte of the request. -/
theorem readsEntry_iff {place : ℤ} : q.ReadsEntry place ↔ ∃ b, q.Touches b ∧ b * 16 + 16 = place :=
  ⟨touches_of_readsEntry, fun ⟨_, hb, h⟩ => h ▸ readsEntry_of_touches hb⟩

/-- `fuse_write` replaces the same entries. -/
theorem writesEntry_iff {place : ℤ} :
    q.WritesEntry place ↔ ∃ b, q.Touches b ∧ b * 16 + 16 = place :=
  ⟨touches_of_writesEntry, fun ⟨_, hb, h⟩ => h ▸ writesEntry_of_touches hb⟩

/-- The lock has all 16 bytes of the entries that `fuse_read` and `fuse_write` use. -/
def Covers (q : Request) : Prop :=
  ∀ place, q.ReadsEntry place ∨ q.WritesEntry place →
    ∀ x, place ≤ x → x < place + 16 → q.Locks x

/-- The parts of a block at the two ends of the request are no more than one block. -/
def EndsFit (q : Request) : Prop := q.offset % 4096 + q.len % 4096 ≤ 4096

theorem covers_iff_endsFit : q.Covers ↔ q.EndsFit := by
  simp only [Covers, readsEntry_iff, writesEntry_iff, or_self]
  rw [EndsFit, ← locks_iff]
  constructor
  · intro h b hb
    have hfirst := h _ ⟨b, hb, rfl⟩ (b * 16 + 16) le_rfl (by omega)
    have hlast := h _ ⟨b, hb, rfl⟩ (b * 16 + 31) (by omega) (by omega)
    have hlt := hlast.2
    exact ⟨hfirst.1, by omega⟩
  · rintro h place ⟨b, hb, rfl⟩ x hle hlt
    have hlock := h b hb
    exact ⟨hlock.1.trans hle, by omega⟩

/-- The requests have bytes in a common block. -/
def Meets (q q' : Request) : Prop := ∃ b, q.Touches b ∧ q'.Touches b

/-- The locks have a common byte. -/
def Overlaps (q q' : Request) : Prop := ∃ x, q.Locks x ∧ q'.Locks x

/-- The locks of two requests cover their entries, and overlap if the requests meet, if and only
if the ends of both requests fit in one block. -/
theorem covers_iff (q q' : Request) :
    q.Covers ∧ q'.Covers ∧ (q.Meets q' → q.Overlaps q') ↔ q.EndsFit ∧ q'.EndsFit := by
  rw [covers_iff_endsFit, covers_iff_endsFit]
  refine ⟨fun h => ⟨h.1, h.2.1⟩, fun ⟨h, h'⟩ => ⟨h, h', ?_⟩⟩
  rintro ⟨b, hb, hb'⟩
  have hlock := locks_iff.2 h b hb
  have hlock' := locks_iff.2 h' b hb'
  exact ⟨b * 16 + 16, ⟨hlock.1, by omega⟩, hlock'.1, by omega⟩

/-- The last byte of a block and the first of the next. -/
def straddling : Request := ⟨4095, 2, by decide, by decide, by decide⟩

/-- The second of these bytes. -/
def second : Request := ⟨4096, 1, by decide, by decide, by decide⟩

/-- The lock of two bytes of two blocks does not cover the entry of the second, and does not
overlap the lock of the second byte. -/
theorem covers_counterexample :
    ¬straddling.Covers ∧ straddling.Meets second ∧ ¬straddling.Overlaps second := by
  rw [covers_iff_endsFit]
  refine ⟨by simp [EndsFit, straddling], ⟨1, ⟨4096, ?_⟩, 4096, ?_⟩, ?_⟩
  · decide
  · decide
  rintro ⟨x, ⟨-, hlt⟩, hle, -⟩
  rw [lockStart_eq, lockLen_eq] at hlt
  rw [lockStart_eq] at hle
  simp only [straddling, second] at hlt hle
  omega

end Request

end Agilefs
