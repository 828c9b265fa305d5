import Agilefs.Fuse

/-!
# The loops of the client

What one iteration of the loops of `fuse_write`, `fuse_truncate` and `fuse_ftruncate` does,
with all transfers complete, for offsets and sizes that fit in an `off_t`.

`writeBody_spec` : an iteration deletes the key it has read, stores the block under the hash
of its bytes, and writes this hash over the entry of the block; `writeBody_cases` has also the
`pwrite` that fails. `truncLoop_returns` and
`writeLoop_returns` : the loops end if no call to the store aborts.
-/

namespace Agilefs

open CInt Posix Function ByteFile

variable {B P : Type*}

/-! ## Sizes and entries -/

@[simp] theorem length_offBytes (x : ℤ) : (offBytes x).length = 8 :=
  length_leBytes _ _

theorem offBytes_ne_nil (x : ℤ) : offBytes x ≠ [] :=
  List.ne_nil_of_length_pos (by rw [length_offBytes]; decide)

theorem int64_ofLe_offBytes {x : ℤ} (h₁ : -2 ^ 63 ≤ x) (h₂ : x < 2 ^ 63) :
    int64 (ofLe (offBytes x)) = x := by
  have hu : uint64 x = ((uint64 x).toNat : ℤ) := by
    unfold uint64
    omega
  rw [offBytes, ofLe_leBytes]
  unfold uint64 at *
  simp only [int64, Int.bmod]
  omega

theorem offLoad_nil {x : ℤ} (h₁ : -2 ^ 63 ≤ x) (h₂ : x < 2 ^ 63) : offLoad x [] = x := by
  simp [offLoad, int64_ofLe_offBytes h₁ h₂]

/-- Eight bytes read replace the variable. -/
theorem offLoad_full (x : ℤ) {d : List UInt8} (hd : d.length = 8) :
    offLoad x d = int64 (ofLe d) := by
  rw [offLoad, List.take_of_length_le hd.le, overlay_of_length_le (by simp [hd])]

theorem offLoad_offBytes (x : ℤ) {y : ℤ} (h₁ : -2 ^ 63 ≤ y) (h₂ : y < 2 ^ 63) :
    offLoad x (offBytes y) = y := by
  rw [offLoad_full x (length_offBytes y), int64_ofLe_offBytes h₁ h₂]

theorem Key.load_full (k : Key) {d : List UInt8} (hd : d.length = 16) : k.load d = ⟨d, hd⟩ := by
  refine Subtype.ext ?_
  simp only [Key.load]
  rw [List.take_of_length_le hd.le, overlay_of_length_le (by rw [hd, k.property])]

theorem Key.load_nil (k : Key) : k.load [] = k := Subtype.ext (by simp [Key.load])

theorem Key.load_val (k : Key) {d : List UInt8} (hd : d.length ≤ 16) :
    (k.load d).val = overlay k.val d := by
  simp only [Key.load, List.take_of_length_le hd]

theorem Key.val_ne_nil (k : Key) : k.val ≠ [] :=
  List.ne_nil_of_length_pos (by rw [k.property]; decide)

/-- The index of the block of byte `i`. -/
def blockIndex (i : ℤ) : ℕ := i.toNat / 4096

theorem entryOffset_eq {i : ℤ} (h : 0 ≤ i) :
    entryOffset i = ((blockIndex i * 16 + 16 : ℕ) : ℤ) := by
  rw [entryOffset, Int.tdiv_eq_ediv_of_nonneg h, blockIndex]
  push_cast
  rw [Int.toNat_of_nonneg h]

/-- The entry of block `b` in the metafile `f`, fewer than 16 bytes if `f` ends before. -/
def entryBytes (f : ByteFile) (b : ℕ) : List UInt8 := f.pread 16 (b * 16 + 16)

theorem entryBytes_eq_nil {f : ByteFile} {b : ℕ} (h : f.length ≤ b * 16 + 16) :
    entryBytes f b = [] := by
  refine List.length_eq_zero_iff.1 ?_
  rw [entryBytes, length_pread]
  omega

theorem readKey_full {os : Os P} {fd : ℤ} {n : ℕ} (h : os.ino fd = some n) {i : ℤ} (hi : 0 ≤ i)
    (k : Key) : readKey os {} fd i k = k.load (entryBytes (os.inodes n) (blockIndex i)) := by
  rw [readKey, entryOffset_eq hi, Os.pread_full h]
  simp [Os.content, h, entryBytes]

theorem readSize_full {os : Os P} {fd : ℤ} {n : ℕ} (h : os.ino fd = some n) (x : ℤ) :
    readSize os {} fd x = offLoad x ((os.inodes n).pread 8 0) := by
  have hread := Os.pread_full h 8 0
  rw [Nat.cast_zero] at hread
  have hc : os.content fd = os.inodes n := by simp [Os.content, h]
  rw [readSize, hread, hc, Option.map_some, Option.getD_some]

theorem writeSize_full {os : Os P} {fd : ℤ} {n : ℕ} (h : os.ino fd = some n) (x : ℤ) :
    writeSize os {} fd x =
      (os.setContent n ((os.inodes n).pwrite (offBytes x) 0), 8) := by
  have hwrite := Os.pwrite_full h (offBytes x) 0
  rw [Nat.cast_zero] at hwrite
  rw [writeSize, hwrite, length_offBytes]
  rfl

/-- A `pwrite` of a key that moves as many bytes as it moves. -/
theorem pwrite_key {os : Os P} {fd : ℤ} {n : ℕ} (hino : os.ino fd = some n) (t : Transfer)
    (key : Key) (off : ℕ) :
    ∃ res, os.pwrite t fd key.val off =
      (os.setContent n ((os.inodes n).pwrite (key.val.take ((t 16).getD 0)) off), res) ∧
      (res = 16 ↔ 16 ≤ (t 16).getD 0) := by
  have hk := key.property
  simp only [Os.pwrite, hino, hk, if_neg (by omega : ¬(off : ℤ) < 0), Int.toNat_natCast]
  cases ht : t 16 with
  | none =>
    refine ⟨-1, ?_, by simp⟩
    simp only [Option.getD_none, List.take_zero, pwrite_nil, os.setContent_self]
  | some moved =>
    refine ⟨_, rfl, ?_⟩
    rw [Option.getD_some, List.length_take, hk]
    omega

/-! ## Truncation -/

namespace Client

theorem truncBody_spec {st : BlockStore B} {os : Os P} {fd : ℤ} {n : ℕ}
    (h : os.ino fd = some n) {t t' : TruncState B} (hi : 0 ≤ t.i)
    (hbody : truncBody st os {} fd t = some t') :
    ∃ ret, st.delChunk t.store t'.hashKey = some (t'.store, ret) ∧
      t'.hashKey = t.hashKey.load (entryBytes (os.inodes n) (blockIndex t.i)) ∧
      t'.i = t.i + 4096 := by
  simp only [truncBody, readKey_full h hi, Option.map_eq_some_iff] at hbody
  obtain ⟨⟨store, ret⟩, hdel, rfl⟩ := hbody
  exact ⟨ret, hdel, rfl, rfl⟩

/-- The loop ends if no delete aborts. -/
theorem truncLoop_returns {st : BlockStore B} (hdel : ∀ b k, (st.delChunk b k).isSome)
    (os : Os P) (io : Io) (fd stSize : ℤ) (t : TruncState B) :
    ∃ t', truncLoop st os io fd stSize t = some t' := by
  have hbody : ∀ t : TruncState B, True → decide (t.i < stSize) = true →
      ∃ t', truncBody st os io fd t = some t' ∧ True ∧
        (stSize - t'.i).toNat < (stSize - t.i).toNat := by
    intro t _ hcond
    rw [decide_eq_true_eq] at hcond
    obtain ⟨r, hr⟩ := Option.isSome_iff_exists.1 (hdel t.store (readKey os io fd t.i t.hashKey))
    refine ⟨_, by simp only [truncBody, hr]; rfl, trivial, ?_⟩
    simp only
    omega
  obtain ⟨t', ht', -⟩ := Loop.run_spec hbody trivial (Nat.lt_succ_self (stSize - t.i).toNat)
  exact ⟨t', ht'⟩

/-! ## Writing -/

/-- The number of bytes that go to the block of byte `i`, of a write that ends at `stop`. -/
def chunkLen (stop i : ℤ) : ℕ := (min (stop - i) (4096 - i % 4096)).toNat

/-- The test of the loop, on offsets that fit in an `off_t`. -/
theorem writeCond_iff {offset i : ℤ} {buf : List UInt8} (h₀ : 0 ≤ i)
    (hmax : offset + buf.length < 2 ^ 63) (hi : i ≤ offset + buf.length) :
    uint64 i < uint64 (offset + buf.length) ↔ i < offset + buf.length := by
  rw [uint64_of_range (by omega) (by omega), uint64_of_range (by omega) (by omega)]

/-- One iteration, with complete reads : the `pwrite` of the key fails, or the put returns. -/
theorem writeBody_cases {doHash : List UInt8 → Key} {st : BlockStore B} {io : Io}
    (hio : ∀ off, io.pread off = .full) {fd : ℤ} {buf : List UInt8} {offset : ℤ}
    {w w' : WriteState B P} {n : ℕ} (hino : w.os.ino fd = some n) (h₀ : 0 ≤ offset)
    (hmax : offset + buf.length < 2 ^ 63) (hle : offset ≤ w.i) (hlt : w.i < offset + buf.length)
    (hbody : writeBody doHash st io fd buf offset w = some w') :
    ∃ key data store ret, key = w.hashKey.load (entryBytes (w.os.inodes n) (blockIndex w.i)) ∧
      data = blockData st w.store key buf offset w.i (chunkLen (offset + buf.length) w.i) ∧
      st.delChunk w.store key = some (store, ret) ∧
      ((∃ moved, moved = (io.pwrite (entryOffset w.i) 16).getD 0 ∧ moved < 16 ∧
        w' = ⟨w.os.setContent n ((w.os.inodes n).pwrite ((doHash data).val.take moved)
          (blockIndex w.i * 16 + 16)), store, doHash data, w.i, false⟩) ∨
      ∃ store' ret', st.putNewChunk store (doHash data) data = some (store', ret') ∧
        w' = ⟨w.os.setContent n ((w.os.inodes n).pwrite (doHash data).val
          (blockIndex w.i * 16 + 16)), store', doHash data,
          if ret' = 0 then w.i + chunkLen (offset + buf.length) w.i else w.i,
          decide (ret' = 0)⟩) := by
  have hlen : min (int64 (buf.length + offset - w.i)) (4096 - w.i % 4096) =
      chunkLen (offset + buf.length) w.i := by
    rw [int64_of_range (by omega) (by omega), chunkLen]
    omega
  have hkey : readKey w.os io fd w.i w.hashKey = readKey w.os {} fd w.i w.hashKey := by
    simp only [readKey, hio]
  simp only [writeBody, hlen, hkey, readKey_full hino (h₀.trans hle)] at hbody
  generalize w.hashKey.load (entryBytes (w.os.inodes n) (blockIndex w.i)) = key at hbody ⊢
  generalize hdata : blockData st w.store key buf offset w.i
    (chunkLen (offset + buf.length) w.i) = data at hbody
  obtain ⟨⟨store, ret⟩, hdel, hrest⟩ := Option.bind_eq_some_iff.1 hbody
  refine ⟨key, data, store, ret, rfl, hdata.symm, hdel, ?_⟩
  obtain ⟨res, hwrite, hres⟩ := pwrite_key hino (io.pwrite (entryOffset w.i)) (doHash data)
    (blockIndex w.i * 16 + 16)
  rw [← entryOffset_eq (h₀.trans hle)] at hwrite
  simp only [hwrite] at hrest
  by_cases hmoved : res = 16
  · rw [if_neg (not_not.2 hmoved)] at hrest
    obtain ⟨⟨store', ret'⟩, hput, hw'⟩ := Option.map_eq_some_iff.1 hrest
    rw [List.take_of_length_le (by rw [(doHash data).property]; exact hres.1 hmoved)] at hw'
    refine Or.inr ⟨store', ret', hput, ?_⟩
    by_cases hret : ret' = 0
    · simpa [hret] using hw'.symm
    · simpa [hret] using hw'.symm
  · rw [if_pos hmoved] at hrest
    exact Or.inl ⟨_, rfl, by omega, (Option.some.inj hrest).symm⟩

/-- One iteration of the loop of `fuse_write`. -/
theorem writeBody_spec {doHash : List UInt8 → Key} {st : BlockStore B} {fd : ℤ}
    {buf : List UInt8} {offset : ℤ} {w w' : WriteState B P} {n : ℕ} (h : w.os.ino fd = some n)
    (h₀ : 0 ≤ offset) (hmax : offset + buf.length < 2 ^ 63) (hle : offset ≤ w.i)
    (hlt : w.i < offset + buf.length) (hbody : writeBody doHash st {} fd buf offset w = some w') :
    ∃ old data store ret ret', old = w.hashKey.load (entryBytes (w.os.inodes n) (blockIndex w.i)) ∧
      data = blockData st w.store old buf offset w.i (chunkLen (offset + buf.length) w.i) ∧
      st.delChunk w.store old = some (store, ret) ∧ w'.hashKey = doHash data ∧
      st.putNewChunk store w'.hashKey data = some (w'.store, ret') ∧
      w'.os = w.os.setContent n
        ((w.os.inodes n).pwrite w'.hashKey.val (blockIndex w.i * 16 + 16)) ∧
      w'.ok = decide (ret' = 0) ∧
      w'.i = if ret' = 0 then w.i + chunkLen (offset + buf.length) w.i else w.i := by
  obtain ⟨old, data, store, ret, hold, hdata, hdel, hcase⟩ :=
    writeBody_cases (fun _ => rfl) h h₀ hmax hle hlt hbody
  rcases hcase with ⟨moved, hmoved, hshort, -⟩ | ⟨store', ret', hput, rfl⟩
  · -- a complete `pwrite` moves all of the key
    change moved = 16 at hmoved
    omega
  · exact ⟨old, data, store, ret, ret', hold, hdata, hdel, rfl, hput, rfl, rfl, rfl⟩

theorem chunkLen_pos {stop i : ℤ} (h : i < stop) : 0 < chunkLen stop i := by
  unfold chunkLen
  omega

theorem add_chunkLen_le {stop i : ℤ} (h : i ≤ stop) : i + chunkLen stop i ≤ stop := by
  unfold chunkLen
  omega

/-- What the iterations preserve holds after the loop, which ends at the end of the write or at
a failed call. -/
theorem writeLoop_invariant {doHash : List UInt8 → Key} {st : BlockStore B} {fd : ℤ}
    {buf : List UInt8} {offset : ℤ} {n : ℕ} {I : WriteState B P → Prop} (h₀ : 0 ≤ offset)
    (hmax : offset + buf.length < 2 ^ 63) (hino : ∀ w, I w → w.os.ino fd = some n)
    (hbody : ∀ w w', I w → w.ok = true → offset ≤ w.i → w.i < offset + buf.length →
      writeBody doHash st {} fd buf offset w = some w' → I w')
    {w w' : WriteState B P} (hw : I w) (hi : w.i = offset)
    (hrun : writeLoop doHash st {} fd buf offset w = some w') :
    I w' ∧ (w'.ok → w'.i = offset + buf.length) := by
  obtain ⟨⟨hI, hle, hstop⟩, hcond⟩ := Loop.run_invariant
    (I := fun w => I w ∧ offset ≤ w.i ∧ w.i ≤ offset + buf.length)
    (fun w w' ⟨hI, hle, hstop⟩ hcond hs => by
      rw [Bool.and_eq_true, decide_eq_true_eq, writeCond_iff (h₀.trans hle) hmax hstop] at hcond
      obtain ⟨_, _, _, _, ret', -, -, -, -, -, -, -, hi'⟩ :=
        writeBody_spec (hino w hI) h₀ hmax hle hcond.2 hs
      have := add_chunkLen_le hstop
      refine ⟨hbody w w' hI hcond.1 hle hcond.2 hs, ?_⟩
      rw [hi']
      split_ifs <;> omega)
    ⟨hw, by omega, by omega⟩ hrun
  refine ⟨hI, fun hok => ?_⟩
  rw [hok, Bool.true_and, decide_eq_false_iff_not, writeCond_iff (h₀.trans hle) hmax hstop] at hcond
  omega

/-- The loop ends if no call to the store aborts. -/
theorem writeLoop_returns {doHash : List UInt8 → Key} {st : BlockStore B}
    (hdel : ∀ b k, (st.delChunk b k).isSome) (hput : ∀ b k d, (st.putNewChunk b k d).isSome)
    (io : Io) (fd : ℤ) {buf : List UInt8} {offset : ℤ} (h₀ : 0 ≤ offset)
    (hmax : offset + buf.length < 2 ^ 63) {w : WriteState B P} (hi : w.i = offset) :
    ∃ w', writeLoop doHash st io fd buf offset w = some w' := by
  have hbody : ∀ w : WriteState B P, (offset ≤ w.i ∧ w.i ≤ offset + buf.length) →
      (w.ok && decide (uint64 w.i < uint64 (offset + buf.length))) = true →
      ∃ w', writeBody doHash st io fd buf offset w = some w' ∧
        (offset ≤ w'.i ∧ w'.i ≤ offset + buf.length) ∧
        (if w'.ok then (offset + buf.length - w'.i).toNat else 0) <
          if w.ok then (offset + buf.length - w.i).toNat else 0 := by
    rintro w ⟨hle, hstop⟩ hcond
    rw [Bool.and_eq_true, decide_eq_true_eq, writeCond_iff (h₀.trans hle) hmax hstop] at hcond
    obtain ⟨hok, hlt⟩ := hcond
    have hint : int64 (buf.length + offset - w.i) = buf.length + offset - w.i :=
      int64_of_range (by omega) (by omega)
    simp only [writeBody, hok, hint]
    generalize blockData st w.store _ buf offset w.i _ = data
    obtain ⟨⟨store, ret⟩, hr⟩ := Option.isSome_iff_exists.1
      (hdel w.store (readKey w.os io fd w.i w.hashKey))
    obtain ⟨⟨store', ret'⟩, hr'⟩ := Option.isSome_iff_exists.1 (hput store (doHash data) data)
    simp only [hr, Option.bind_some, hr', Option.map_some]
    by_cases hres : (w.os.pwrite (io.pwrite (entryOffset w.i)) fd (doHash data).val
        (entryOffset w.i)).2 = 16
    · rw [if_neg (by simpa using hres)]
      refine ⟨_, rfl, ?_⟩
      by_cases hret : ret' = 0 <;> simp [hret] <;> omega
    · rw [if_pos hres]
      exact ⟨_, rfl, ⟨hle, hstop⟩, by simp; omega⟩
  obtain ⟨w', hw', -⟩ := Loop.run_spec (n := buf.length + 1) hbody ⟨hi.ge, by omega⟩
    (by split_ifs <;> omega)
  exact ⟨w', hw'⟩

/-! ## Requests -/

section Requests

variable {c : Client B P} {p : P} {n fh : ℕ} {ctx : FileContext}

theorem fuseCreate_eq [DecidableEq P] (h : c.os.names p = none) :
    c.fuseCreate {} p =
      (alloc { c with os := (c.os.create p).1.setContent c.os.nextIno (List.replicate 16 0) }
        ⟨c.os.nextFd, 0⟩, some 0) := by
  have hne : (c.os.nextFd : ℤ) ≠ -1 := by omega
  have hino : (c.os.create p).1.ino c.os.nextFd = some c.os.nextIno := by simp [Os.ino]
  have hwrite := Os.pwrite_full hino (offBytes 0 ++ offBytes 0) 0
  have hzero : offBytes 0 ++ offBytes 0 = List.replicate 16 0 := by decide
  rw [Nat.cast_zero, hzero] at hwrite
  simp only [fuseCreate, Os.openExcl_eq h, if_neg hne, hzero, hwrite]
  simp [Os.setContent, ByteFile.pwrite]

theorem fuseMknod_eq [DecidableEq P] (h : c.os.names p = none) :
    c.fuseMknod p = ({ c with os := (c.os.create p).1.close c.os.nextFd }, some 0) := by
  have hne : (c.os.nextFd : ℤ) ≠ -1 := by omega
  simp only [fuseMknod, Os.openExcl_eq h, if_neg hne]

theorem fuseOpen_eq (h : c.os.lookup p = some n) (junk : ℤ) :
    c.fuseOpen {} p junk = (alloc { c with os := (c.os.attach n).1 }
      ⟨c.os.nextFd, offLoad junk ((c.os.inodes n).pread 8 0)⟩, some 0) := by
  have hne : (c.os.attach n).2 ≠ -1 := by
    rw [Os.attach_snd]
    omega
  have hread := readSize_full (c.os.attach_ino_self n) junk
  simp only [fuseOpen, Os.openExisting_eq h, if_neg hne]
  rw [Os.attach_snd, hread, Os.attach_inodes]

/-- The loop of `fuse_truncate` works on a descriptor of its own. -/
theorem fuseTruncate_eq (st : BlockStore B) (h : c.os.lookup p = some n) (size : ℤ) :
    c.fuseTruncate st {} p size =
      (truncLoop st (c.os.attach n).1 {} c.os.nextFd (offLoad 0 ((c.os.inodes n).pread 8 0))
        ⟨c.store, .zero, roundUp size⟩).map fun t =>
          ({ c with
              os := (((c.os.attach n).1.setContent n
                ((c.os.inodes n).pwrite (offBytes size) 0)).close c.os.nextFd),
              store := t.store }, some 0) := by
  have hne : (c.os.attach n).2 ≠ -1 := by
    rw [Os.attach_snd]
    omega
  have hino := c.os.attach_ino_self n
  have hread := Os.pread_full hino 8 0
  have hcontent : (c.os.attach n).1.content c.os.nextFd = c.os.inodes n := by
    simp [Os.content, hino]
  rw [Nat.cast_zero, hcontent] at hread
  simp only [fuseTruncate, Os.openExisting_eq h, if_neg hne]
  rw [Os.attach_snd, hread, writeSize_full hino, Os.attach_inodes]

theorem fuseFtruncate_eq (st : BlockStore B) (h : c.contexts fh = some ctx)
    (hino : c.os.ino ctx.fd = some n) (size : ℤ) :
    c.fuseFtruncate st {} fh size =
      (truncLoop st c.os {} ctx.fd ctx.stSize ⟨c.store, .zero, roundUp size⟩).map fun t =>
        ({ c with
            os := c.os.setContent n ((c.os.inodes n).pwrite (offBytes size) 0)
            store := t.store
            contexts := update c.contexts fh (some ⟨ctx.fd, size⟩) }, some 0) := by
  simp only [fuseFtruncate, h, Option.bind_some, writeSize_full hino]

theorem fuseRelease_eq (h : c.contexts fh = some ctx) (hino : c.os.ino ctx.fd = some n) :
    c.fuseRelease {} fh = some
      ({ c with
          os := (c.os.setContent n ((c.os.inodes n).pwrite (offBytes ctx.stSize) 0)).close ctx.fd
          contexts := update c.contexts fh none }, some 0) := by
  simp only [fuseRelease, h, Option.map_some, writeSize_full hino]
  rfl

theorem fuseFsync_eq (h : c.contexts fh = some ctx) (hino : c.os.ino ctx.fd = some n) :
    c.fuseFsync {} fh = some
      ({ c with os := c.os.setContent n ((c.os.inodes n).pwrite (offBytes ctx.stSize) 0) },
        some 0) := by
  simp only [fuseFsync, h, Option.map_some, writeSize_full hino]
  rfl

theorem grownSize_eq {stSize stop : ℤ} (h₀ : 0 ≤ stSize) (h₁ : stSize < 2 ^ 63) (h₂ : 0 ≤ stop)
    (h₃ : stop < 2 ^ 63) : grownSize stSize stop = max stSize stop := by
  rw [grownSize, uint64_of_range (by omega) (by omega), uint64_of_range (by omega) (by omega),
    int64_of_range (by omega) (by omega)]
  split_ifs <;> omega

/-- A successful `fuse_write` : the loop has run to its end. -/
theorem fuseWrite_some {doHash : List UInt8 → Key} {st : BlockStore B} {io : Io}
    (h : c.contexts fh = some ctx) {buf : List UInt8} {offset : ℤ} {junk : Key}
    {c' : Client B P} {ret : ℤ}
    (hs : c.fuseWrite doHash st io fh buf offset junk = some (c', some ret)) :
    ∃ w, writeLoop doHash st io ctx.fd buf offset ⟨c.os, c.store, junk, offset, true⟩ = some w ∧
      w.ok = true ∧ c' = { c with
        os := w.os
        store := w.store
        contexts := update c.contexts fh
          (some ⟨ctx.fd, grownSize ctx.stSize (offset + buf.length)⟩) } := by
  simp only [fuseWrite, h, Option.bind_some, Option.map_eq_some_iff] at hs
  obtain ⟨w, hw, hres⟩ := hs
  cases hok : w.ok with
  | true =>
    rw [if_pos hok, Prod.mk.injEq] at hres
    exact ⟨w, hw, hok, hres.1.symm⟩
  | false => simp [hok] at hres

/-- A `fuse_write` that fails : so has a call in the loop. -/
theorem fuseWrite_none {doHash : List UInt8 → Key} {st : BlockStore B} {io : Io}
    (h : c.contexts fh = some ctx) {buf : List UInt8} {offset : ℤ} {junk : Key} {c' : Client B P}
    (hs : c.fuseWrite doHash st io fh buf offset junk = some (c', none)) :
    ∃ w, writeLoop doHash st io ctx.fd buf offset ⟨c.os, c.store, junk, offset, true⟩ = some w ∧
      w.ok = false ∧ c' = { c with os := w.os, store := w.store } := by
  simp only [fuseWrite, h, Option.bind_some, Option.map_eq_some_iff] at hs
  obtain ⟨w, hw, hres⟩ := hs
  cases hok : w.ok with
  | true => simp [hok] at hres
  | false =>
    rw [hok, if_neg Bool.false_ne_true, Prod.mk.injEq] at hres
    exact ⟨w, hw, hok, hres.1.symm⟩

end Requests

end Client

end Agilefs
