import Agilefs.FileSize
import Agilefs.StoreCalls

/-!
# What a truncation releases

`fuse_truncate` and `fuse_ftruncate` delete the keys of the blocks behind the new size, one
`del_chunk` call for each and no other (`truncLoop_calls`), and leave the entries where they
are. `truncations_release` : by path with the old size in the header, or by handle with the old
size in the context, the calls are the same.
-/

namespace Agilefs

open CInt Posix Function ByteFile

variable {B P : Type*}

/-- The key of block `b`. -/
def entryKey (f : ByteFile) (b : ℕ) : Key := Key.zero.load (entryBytes f b)

theorem HasEntry.load_eq {f : ByteFile} {b : ℕ} (h : HasEntry f b) (k : Key) :
    k.load (entryBytes f b) = entryKey f b :=
  Subtype.ext ((h.load k).trans (h.load Key.zero).symm)

theorem HasEntry.entryKey_val {f : ByteFile} {b : ℕ} (h : HasEntry f b) :
    (entryKey f b).val = entryBytes f b :=
  h.load Key.zero

/-- What is in `hash_key` after the reads of `m` blocks from block `first`. A read that finds less
than an entry leaves the rest as it was. -/
def keyLeft (f : ByteFile) (first : ℕ) : ℕ → Key
  | 0 => Key.zero
  | m + 1 => (keyLeft f first m).load (entryBytes f (first + m))

theorem HasEntry.keyLeft_succ {f : ByteFile} {first m : ℕ} (h : HasEntry f (first + m)) :
    keyLeft f first (m + 1) = entryKey f (first + m) :=
  h.load_eq (keyLeft f first m)

/-- The deletes of the blocks from `size` up to `stSize`. -/
def releases (f : ByteFile) (size stSize : ℤ) : List StoreCall :=
  (List.range' (blocks size) (blocks stSize - blocks size)).map fun b => .del (entryKey f b)

/-- The truncated metafile : the new size in the header, and the same entries. -/
structure Truncated (f f' : ByteFile) (size : ℤ) : Prop where
  header : headerSize f' = size
  entries : ∀ b, entryBytes f' b = entryBytes f b

theorem truncated_writeHeader (f : ByteFile) {size : ℤ} (h₀ : 0 ≤ size) (h₁ : size < 2 ^ 63) :
    Truncated f (f.pwrite (offBytes size) 0) size :=
  ⟨headerSize_writeHeader f (by omega) h₁, entryBytes_writeHeader f size⟩

/-- With a header, or an empty metafile, `fuse_truncate` reads the size of the file. -/
theorem Headed.offLoad_eq {f : ByteFile} (h : Headed f) :
    offLoad 0 (f.pread 8 0) = headerSize f := by
  rcases h with rfl | h
  · rw [headerSize_nil]
    exact offLoad_nil (by decide) (by decide)
  · exact offLoad_header h 0

namespace Client

/-- A truncation of the metafile `f` to `size` that has released `m` blocks, by the calls after
those before it. -/
structure Released (f : ByteFile) (size stSize : ℤ) (before : List StoreCall)
    (u : TruncState (B × List StoreCall)) (m : ℕ) : Prop where
  position : u.i = ((blocks size + m : ℕ) : ℤ) * 4096
  le_blocks : m = 0 ∨ blocks size + m ≤ blocks stSize
  hashKey : u.hashKey = keyLeft f (blocks size) m
  calls : u.store.2 = before ++
    (List.range m).map fun b => .del (keyLeft f (blocks size) (b + 1))

/-- One iteration releases the next block. -/
theorem Released.step {st : BlockStore B} {os : Os P} {fd : ℤ} {n : ℕ}
    (hino : os.ino fd = some n) {size stSize : ℤ} {before : List StoreCall}
    {u u' : TruncState (B × List StoreCall)} {m : ℕ}
    (h : Released (os.inodes n) size stSize before u m) (hlt : u.i < stSize)
    (hbody : truncBody st.recorded os {} fd u = some u') :
    Released (os.inodes n) size stSize before u' (m + 1) := by
  have hi := h.position
  rw [hi, ← lt_blocks_iff] at hlt
  obtain ⟨ret, hcall, hkey, hi'⟩ := truncBody_spec hino (by omega) hbody
  have hindex : blockIndex u.i = blocks size + m := by
    unfold blockIndex
    omega
  rw [hindex, h.hashKey] at hkey
  refine ⟨by omega, Or.inr (by omega), hkey, ?_⟩
  rw [(recorded_delChunk hcall).2, h.calls, hkey, List.range_succ, List.map_append,
    List.append_assoc]
  rfl

/-- The calls of the loop of a truncation : one delete for each block dropped, of what its read
leaves in `hash_key`. -/
theorem truncLoop_keys {st : BlockStore B} (hdel : ∀ b k, (st.delChunk b k).isSome) {os : Os P}
    {fd : ℤ} {n : ℕ} (hino : os.ino fd = some n) {size : ℤ} (hsize : 0 ≤ size) (stSize : ℤ)
    (store : B × List StoreCall) :
    ∃ t, truncLoop st.recorded os {} fd stSize ⟨store, .zero, roundUp size⟩ = some t ∧
      t.store.2 = store.2 ++ (List.range (blocks stSize - blocks size)).map fun b =>
        .del (keyLeft (os.inodes n) (blocks size) (b + 1)) := by
  obtain ⟨t, ht⟩ := truncLoop_returns (recorded_del_isSome hdel) os {} fd stSize
    ⟨store, .zero, roundUp size⟩
  have hstart : Released (os.inodes n) size stSize store.2 ⟨store, .zero, roundUp size⟩ 0 :=
    ⟨by simpa using roundUp_eq hsize, Or.inl rfl, rfl, by simp⟩
  obtain ⟨⟨m, h⟩, hend⟩ := Loop.run_invariant
    (I := fun u => ∃ m, Released (os.inodes n) size stSize store.2 u m)
    (fun u u' ⟨m, h⟩ hlt hbody => ⟨m + 1, h.step hino (of_decide_eq_true hlt) hbody⟩)
    ⟨0, hstart⟩ ht
  have hle := h.le_blocks
  rw [decide_eq_false_iff_not, h.position, ← lt_blocks_iff] at hend
  obtain rfl : m = blocks stSize - blocks size := by omega
  exact ⟨t, ht, h.calls⟩

/-- If the metafile has the entries of all blocks dropped, their keys are deleted. -/
theorem truncLoop_calls {st : BlockStore B} (hdel : ∀ b k, (st.delChunk b k).isSome) {os : Os P}
    {fd : ℤ} {n : ℕ} (hino : os.ino fd = some n) {size stSize : ℤ} (hsize : 0 ≤ size)
    (hentry : ∀ b < blocks stSize, HasEntry (os.inodes n) b) (store : B × List StoreCall) :
    ∃ t, truncLoop st.recorded os {} fd stSize ⟨store, .zero, roundUp size⟩ = some t ∧
      t.store.2 = store.2 ++ releases (os.inodes n) size stSize := by
  obtain ⟨t, ht, hcalls⟩ := truncLoop_keys hdel hino hsize stSize store
  refine ⟨t, ht, ?_⟩
  rw [hcalls, releases, List.range'_eq_map_range, List.map_map]
  refine congrArg (store.2 ++ ·) (List.map_congr_left fun b hb => ?_)
  rw [List.mem_range] at hb
  exact congrArg StoreCall.del ((hentry (blocks size + b) (by omega)).keyLeft_succ)

/-- Truncating by path a file with `stSize` in its header, and by handle an open file with `stSize`
in its context, make the same calls : one delete of the stored key of each block dropped, in
order. Both end, set the size in the header and leave the entries. -/
theorem truncations_release (st : BlockStore B) (hdel : ∀ b k, (st.delChunk b k).isSome)
    {f : ByteFile} {size stSize : ℤ} (hsize : 0 ≤ size ∧ size ≤ 2 ^ 63 - 1 - 4096)
    (_hst : 0 ≤ stSize ∧ stSize ≤ 2 ^ 63 - 1 - 4096)
    (hentry : ∀ b < blocks stSize, HasEntry f b) :
    (∀ (c : Client (B × List StoreCall) P) (p : P) (n : ℕ), c.os.lookup p = some n →
      c.os.inodes n = f → Headed f → headerSize f = stSize →
        ∃ c', c.fuseTruncate st.recorded {} p size = some (c', some 0) ∧
          c'.store.2 = c.store.2 ++ releases f size stSize ∧
          Truncated f (c'.os.inodes n) size) ∧
    ∀ (c : Client (B × List StoreCall) P) (fh : ℕ) (fd : ℤ) (n : ℕ),
      c.contexts fh = some ⟨fd, stSize⟩ → c.os.ino fd = some n → c.os.inodes n = f →
        ∃ c', c.fuseFtruncate st.recorded {} fh size = some (c', some 0) ∧
          c'.store.2 = c.store.2 ++ releases f size stSize ∧
          Truncated f (c'.os.inodes n) size ∧ c'.contexts fh = some ⟨fd, size⟩ := by
  have htrunc := truncated_writeHeader f hsize.1 (by omega)
  constructor
  · intro c p n hp hf hhead hheader
    have hino := c.os.attach_ino_self n
    have hentry' : ∀ b < blocks stSize, HasEntry ((c.os.attach n).1.inodes n) b := by
      rw [Os.attach_inodes, hf]
      exact hentry
    obtain ⟨t, ht, hcalls⟩ := truncLoop_calls hdel hino hsize.1 hentry' c.store
    rw [Os.attach_inodes, hf] at hcalls
    rw [fuseTruncate_eq st.recorded hp, hf, hhead.offLoad_eq, hheader, ht]
    refine ⟨_, rfl, hcalls, ?_⟩
    simp only [Os.close, Os.setContent_inodes, update_self]
    exact htrunc
  · intro c fh fd n hctx hino hf
    obtain ⟨t, ht, hcalls⟩ := truncLoop_calls hdel hino hsize.1 (hf.symm ▸ hentry) c.store
    rw [hf] at hcalls
    rw [fuseFtruncate_eq st.recorded hctx hino, hf, ht]
    refine ⟨_, rfl, hcalls, ?_, ?_⟩
    · simp only [Os.setContent_inodes, update_self]
      exact htrunc
    · simp only [update_self]

/-- A file of two blocks, cut to one byte. -/
theorem truncations_release_two :
    (∃ c', (ofFile (metafile 4097 [⟨List.replicate 16 1, rfl⟩, ⟨List.replicate 16 2, rfl⟩]) 4097
        ((), [])).fuseTruncate OneFile.nullStore.recorded {} 0 1 = some (c', some 0) ∧
      c'.store.2 = [.del ⟨List.replicate 16 2, rfl⟩]) ∧
    ∃ c', (ofFile (metafile 4097 [⟨List.replicate 16 1, rfl⟩, ⟨List.replicate 16 2, rfl⟩]) 4097
        ((), [])).fuseFtruncate OneFile.nullStore.recorded {} 0 1 = some (c', some 0) ∧
      c'.store.2 = [.del ⟨List.replicate 16 2, rfl⟩] := by
  set f := metafile 4097 [⟨List.replicate 16 1, rfl⟩, ⟨List.replicate 16 2, rfl⟩] with hf
  have hlen : f.length = 48 := by decide +kernel
  have hentry : ∀ b < blocks 4097, HasEntry f b := fun b hb => by
    rw [lt_blocks_iff] at hb
    rw [hasEntry_iff]
    omega
  have hcalls : releases f 1 4097 = [.del ⟨List.replicate 16 2, rfl⟩] := by decide +kernel
  have h := truncations_release (P := ℕ) OneFile.nullStore (fun _ _ => rfl)
    (f := f) (by decide : (0 : ℤ) ≤ 1 ∧ (1 : ℤ) ≤ 2 ^ 63 - 1 - 4096) (by decide) hentry
  refine ⟨?_, ?_⟩
  · obtain ⟨c', hc', hput, -⟩ := h.1 (ofFile f 4097 ((), [])) 0 0 (Os.lookup_file rfl) rfl
      (Or.inr (by omega)) (by decide +kernel)
    exact ⟨c', hc', by rw [hput, hcalls]; rfl⟩
  · obtain ⟨c', hc', hput, -⟩ := h.2 (ofFile f 4097 ((), [])) 0 3 0 rfl rfl rfl
    exact ⟨c', hc', by rw [hput, hcalls]; rfl⟩

end Client

end Agilefs
