import Agilefs.LedgerRuns
import Agilefs.Truncation

/-!
# How a write is split into blocks

`fuse_write` puts one chunk for each block it touches, in order (`touched`), with the bytes of
the buffer at their places (`Carries`), writes the hash of each over the entry of its block, and
changes no other byte of the metafile (`Rewritten`). `fuseWrite_splits` : so it does for every
offset and size, whatever `pread`, `block_read` and `del_chunk` do, if its `pwrite`s are complete
and its puts succeed.
-/

namespace Agilefs

open CInt Posix Function ByteFile

variable {B P : Type*}

/-! ## Blocks and their data -/

/-- The blocks with a byte from `offset` on and before `i`. -/
def touched (offset i : ℤ) : List ℕ :=
  if i ≤ offset then [] else List.range' (blockIndex offset) (blocks i - blockIndex offset)

theorem touched_self (offset : ℤ) : touched offset offset = [] := if_pos le_rfl

theorem mem_touched {offset i : ℤ} (h : 0 ≤ offset) {b : ℕ} :
    b ∈ touched offset i ↔ offset < i ∧ offset / 4096 ≤ b ∧ (b : ℤ) * 4096 < i := by
  unfold touched
  split_ifs with hi
  · simp only [List.not_mem_nil, false_iff]
    omega
  · rw [List.mem_range'_1, ← lt_blocks_iff]
    unfold blockIndex blocks
    omega

/-- The place a write from `offset` has come to : its start, or the start of a block. -/
def AtBlock (offset i : ℤ) : Prop := i = offset ∨ offset < i ∧ i % 4096 = 0

theorem atBlock_next {offset stop i : ℤ} (hle : offset ≤ i) (hlt : i < stop)
    (hnext : i + Client.chunkLen stop i < stop) : AtBlock offset (i + Client.chunkLen stop i) := by
  unfold Client.chunkLen at hnext ⊢
  unfold AtBlock
  omega

/-- An iteration touches one more block. -/
theorem touched_next {offset stop i : ℤ} (h₀ : 0 ≤ offset) (hi : AtBlock offset i)
    (hlt : i < stop) :
    touched offset (i + Client.chunkLen stop i) = touched offset i ++ [blockIndex i] := by
  have hpos := Client.chunkLen_pos hlt
  have hle : offset ≤ i := by rcases hi with hi | hi <;> omega
  have hnext : blocks (i + Client.chunkLen stop i) = blockIndex i + 1 := by
    unfold blocks Client.chunkLen blockIndex
    omega
  unfold touched
  rw [if_neg (by omega), hnext]
  rcases hi with rfl | ⟨hgt, hal⟩
  · rw [if_pos le_rfl]
    simp
  · have hprev : blocks i = blockIndex i := by
      unfold blocks blockIndex
      omega
    have hindex : blockIndex offset ≤ blockIndex i := by
      unfold blockIndex
      omega
    rw [if_neg (by omega), hprev, Nat.succ_sub hindex, List.range'_concat]
    simp only [one_mul, Nat.add_sub_cancel' hindex]

/-- The data of block `b` : 4096 bytes, with the bytes of `buf` at their places. -/
structure Carries (buf : List UInt8) (offset : ℤ) (b : ℕ) (d : List UInt8) : Prop where
  length : d.length = 4096
  bytes : ∀ j : ℕ, j < 4096 → offset ≤ (b : ℤ) * 4096 + j →
    (b : ℤ) * 4096 + j < offset + buf.length → d[j]? = buf[((b : ℤ) * 4096 + j - offset).toNat]?

/-- What a block is before the part of `buf` is copied over it. -/
def baseData (st : BlockStore B) (store : B) (key : Key) (len : ℕ) : List UInt8 :=
  if len ≠ 4096 then
    ((st.blockRead store key 4096 0).map (overlay (List.replicate 4096 0))).getD
      (List.replicate 4096 0)
  else List.replicate 4096 0

theorem blockData_eq (st : BlockStore B) (store : B) (key : Key) (buf : List UInt8)
    (offset i : ℤ) (len : ℕ) :
    Client.blockData st store key buf offset i len =
      ByteFile.pwrite (baseData st store key len)
        ((buf.drop (i - offset).toNat).take len) (i % 4096).toNat := by
  have hlen : (len : ℤ) = 4096 ↔ len = 4096 := by omega
  simp only [Client.blockData, baseData, ne_eq, hlen, Int.toNat_natCast]

/-- `block_read` fills no more than it is asked for. -/
def BlockStore.Bounded (st : BlockStore B) : Prop :=
  ∀ store key n off d, st.blockRead store key n off = some d → d.length ≤ n

theorem length_baseData {st : BlockStore B} (hst : st.Bounded) (store : B) (key : Key) (len : ℕ) :
    (baseData st store key len).length = 4096 := by
  unfold baseData
  split_ifs
  · cases hread : st.blockRead store key 4096 0 with
    | none => exact List.length_replicate
    | some d =>
      have hd := hst _ _ _ _ _ hread
      rw [Option.map_some, Option.getD_some, length_overlay (by rwa [List.length_replicate])]
      exact List.length_replicate
  · exact List.length_replicate

section Data

variable {st : BlockStore B} {store : B} {key : Key} {buf : List UInt8} {offset i : ℤ}

/-- Every byte of the data of an iteration. -/
theorem getElem?_blockData
    (hbase : (baseData st store key (Client.chunkLen (offset + buf.length) i)).length = 4096)
    (hle : offset ≤ i) (hlt : i < offset + buf.length) (h₀ : 0 ≤ offset) (hi : AtBlock offset i)
    {j : ℕ} (hj : j < 4096) :
    (Client.blockData st store key buf offset i
        (Client.chunkLen (offset + buf.length) i))[j]? =
      if offset ≤ (blockIndex i : ℤ) * 4096 + j ∧
          (blockIndex i : ℤ) * 4096 + j < offset + buf.length then
        buf[((blockIndex i : ℤ) * 4096 + j - offset).toNat]?
      else (baseData st store key (Client.chunkLen (offset + buf.length) i))[j]? := by
  generalize hlen : Client.chunkLen (offset + buf.length) i = len at hbase ⊢
  unfold Client.chunkLen at hlen
  have hdlen : ((buf.drop (i - offset).toNat).take len).length = len := by
    simp only [List.length_take, List.length_drop]
    omega
  have hne : (buf.drop (i - offset).toNat).take len ≠ [] := by
    refine List.ne_nil_of_length_pos ?_
    omega
  have hindex : (blockIndex i : ℤ) * 4096 + i % 4096 = i := by
    unfold blockIndex
    omega
  rw [blockData_eq, getElem?_pwrite _ hne, hdlen]
  rcases hi with hi | ⟨hgt, hal⟩
  · split_ifs with h₁ h₂ h₃ h₄
    · omega
    · rw [List.getElem?_eq_getElem (by omega : j < _)]
      rfl
    · rw [List.getElem?_take_of_lt (by omega), List.getElem?_drop]
      congr 1
      omega
    · omega
    · omega
    · rfl
  · split_ifs with h₁ h₂ h₃ h₄
    · omega
    · omega
    · rw [List.getElem?_take_of_lt (by omega), List.getElem?_drop]
      congr 1
      omega
    · omega
    · omega
    · rfl

theorem length_blockData
    (hbase : (baseData st store key (Client.chunkLen (offset + buf.length) i)).length = 4096)
    (hle : offset ≤ i) :
    (Client.blockData st store key buf offset i
      (Client.chunkLen (offset + buf.length) i)).length = 4096 := by
  rw [blockData_eq, length_pwrite_of_le, hbase]
  rw [hbase, List.length_take, List.length_drop]
  unfold Client.chunkLen
  omega

theorem carries_blockData (hst : st.Bounded) (hle : offset ≤ i)
    (hlt : i < offset + buf.length) (h₀ : 0 ≤ offset) (hi : AtBlock offset i) :
    Carries buf offset (blockIndex i) (Client.blockData st store key buf offset i
      (Client.chunkLen (offset + buf.length) i)) := by
  have hbase := length_baseData hst store key (Client.chunkLen (offset + buf.length) i)
  refine ⟨length_blockData hbase hle, fun j hj h₁ h₂ => ?_⟩
  rw [getElem?_blockData hbase hle hlt h₀ hi hj, if_pos ⟨h₁, h₂⟩]

end Data

/-! ## The metafile -/

/-- Only the entries of the blocks `l` are written. -/
def Rewritten (f f' : ByteFile) (l : List ℕ) : Prop :=
  ∀ j < f.length, (∀ b ∈ l, j < b * 16 + 16 ∨ b * 16 + 32 ≤ j) → f'[j]? = f[j]?

theorem rewritten_nil (f : ByteFile) : Rewritten f f [] := fun _ _ _ => rfl

/-- One more entry. -/
theorem Rewritten.writeEntry {f f' : ByteFile} {l : List ℕ} (h : Rewritten f f' l)
    (hlen : f.length ≤ f'.length) (b : ℕ) (k : Key) :
    Rewritten f (f'.pwrite k.val (b * 16 + 16)) (l ++ [b]) := by
  intro j hj hout
  have hb := hout b (by simp)
  rw [← h j hj fun b' hb' => hout b' (by simp [hb']), getElem?_pwrite _ k.val_ne_nil, k.property]
  split_ifs with h₁ h₂
  · rw [List.getElem?_eq_getElem (by omega : j < f'.length)]
    rfl
  · omega
  · rfl

/-- An entry that is there and is not one of those written. -/
theorem Rewritten.entry {f f' : ByteFile} {l : List ℕ} (h : Rewritten f f' l) {b : ℕ}
    (hb : b ∉ l) (hentry : HasEntry f b) : entryBytes f' b = entryBytes f b := by
  rw [hasEntry_iff] at hentry
  refine List.ext_getElem? fun i => ?_
  rw [entryBytes, entryBytes, getElem?_pread, getElem?_pread]
  split_ifs with hi
  · refine h _ (by omega) fun b' hb' => ?_
    have hne : b' ≠ b := fun heq => hb (heq ▸ hb')
    omega
  · rfl

/-- The header, as far as there is one. -/
theorem Rewritten.header {f f' : ByteFile} {l : List ℕ} (h : Rewritten f f' l) {j : ℕ}
    (hj : j < f.length) (h16 : j < 16) : f'[j]? = f[j]? :=
  h j hj fun b _ => Or.inl (by omega)

/-! ## The loop -/

namespace Client

/-- An iteration whose calls succeed. -/
theorem writeBody_complete {doHash : List UInt8 → Key} {st : BlockStore B} {io : Io}
    (hio : ∀ off, io.pwrite off = .full) {fd : ℤ} {buf : List UInt8} {offset : ℤ}
    {w : WriteState B P} {n : ℕ} (hino : w.os.ino fd = some n) (h₀ : 0 ≤ offset)
    (hmax : offset + buf.length < 2 ^ 63) (hle : offset ≤ w.i) (hlt : w.i < offset + buf.length)
    {key : Key} (hkey : readKey w.os io fd w.i w.hashKey = key) {data : List UInt8}
    (hdata : blockData st w.store key buf offset w.i (chunkLen (offset + buf.length) w.i) = data)
    {store store' : B} {ret : ℤ} (hdel : st.delChunk w.store key = some (store, ret))
    (hput : st.putNewChunk store (doHash data) data = some (store', 0)) :
    writeBody doHash st io fd buf offset w = some
      ⟨w.os.setContent n
          ((w.os.inodes n).pwrite (doHash data).val (blockIndex w.i * 16 + 16)),
        store', doHash data, w.i + chunkLen (offset + buf.length) w.i, true⟩ := by
  have hlen : min (int64 (buf.length + offset - w.i)) (4096 - w.i % 4096) =
      chunkLen (offset + buf.length) w.i := by
    rw [int64_of_range (by omega) (by omega), chunkLen]
    omega
  simp only [writeBody, hlen, hkey, hdata, hdel, Option.bind_some, hio,
    entryOffset_eq (h₀.trans hle), Os.pwrite_full hino]
  rw [if_neg (by simp [(doHash data).property])]
  simp only [hput, Option.map_some]
  rfl

/-- What the loop has done up to byte `i` : the puts, and the entries written. -/
structure Split (doHash : List UInt8 → Key) (buf : List UInt8) (offset i : ℤ) (f f' : ByteFile)
    (calls : List (Key × List UInt8)) (chunk : ℕ → List UInt8) : Prop where
  puts : calls = (touched offset i).map fun b => (doHash (chunk b), chunk b)
  carries : ∀ b ∈ touched offset i, Carries buf offset b (chunk b)
  entry : ∀ b ∈ touched offset i, entryBytes f' b = (doHash (chunk b)).val
  rewritten : Rewritten f f' (touched offset i)
  grows : f.length ≤ f'.length

theorem split_nil (doHash : List UInt8 → Key) (buf : List UInt8) (offset : ℤ) (f : ByteFile)
    (chunk : ℕ → List UInt8) : Split doHash buf offset offset f f [] chunk := by
  constructor <;> simp [touched_self, rewritten_nil]

/-- One more block. -/
theorem Split.next {doHash : List UInt8 → Key} {buf : List UInt8} {offset i stop : ℤ}
    {f f' : ByteFile} {calls : List (Key × List UInt8)} {chunk : ℕ → List UInt8}
    (h : Split doHash buf offset i f f' calls chunk) (h₀ : 0 ≤ offset) (hi : AtBlock offset i)
    (hlt : i < stop) {d : List UInt8} (hd : Carries buf offset (blockIndex i) d) :
    Split doHash buf offset (i + chunkLen stop i) f
      (f'.pwrite (doHash d).val (blockIndex i * 16 + 16)) (calls ++ [(doHash d, d)])
      (update chunk (blockIndex i) d) := by
  have hnot : ∀ b ∈ touched offset i, b ≠ blockIndex i := by
    intro b hb
    rw [mem_touched h₀] at hb
    unfold blockIndex
    rcases hi with hi | hi <;> omega
  have hsame : ∀ b ∈ touched offset i, update chunk (blockIndex i) d b = chunk b := fun b hb =>
    update_of_ne (hnot b hb) _ _
  have hlen := length_writeEntry f' (blockIndex i) (doHash d)
  constructor
  · rw [touched_next h₀ hi hlt, List.map_append, h.puts]
    simp only [List.map_cons, List.map_nil, update_self]
    refine congrArg (· ++ _) (List.map_congr_left fun b hb => ?_)
    rw [hsame b hb]
  · rw [touched_next h₀ hi hlt, List.forall_mem_append]
    refine ⟨fun b hb => ?_, by simpa using hd⟩
    rw [hsame b hb]
    exact h.carries b hb
  · rw [touched_next h₀ hi hlt, List.forall_mem_append]
    refine ⟨fun b hb => ?_, ?_⟩
    · rw [hsame b hb, entryBytes_writeEntry_of_ne _ (hnot b hb) (by
        rw [HasEntry, h.entry b hb, (doHash _).property])]
      exact h.entry b hb
    · simp only [List.mem_singleton, forall_eq, update_self]
      exact entryBytes_writeEntry_self _ _ _
  · rw [touched_next h₀ hi hlt]
    exact h.rewritten.writeEntry h.grows _ _
  · have := h.grows
    omega

/-- The loop of a write on its way : the blocks up to `w.i` are put, after the calls `before`. -/
structure Splitting (doHash : List UInt8 → Key) (os : Os P) (n : ℕ) (before : List StoreCall)
    (buf : List UInt8) (offset : ℤ) (w : WriteState (B × List StoreCall) P) : Prop where
  ok : w.ok = true
  le : offset ≤ w.i
  le_stop : w.i ≤ offset + buf.length
  atBlock : w.i < offset + buf.length → AtBlock offset w.i
  os_eq : w.os = os.setContent n (w.os.inodes n)
  split : ∃ chunk calls, puts w.store.2 = puts before ++ calls ∧
    Split doHash buf offset w.i (os.inodes n) (w.os.inodes n) calls chunk

/-- An iteration puts the next block and comes closer to the end. -/
theorem Splitting.step {doHash : List UInt8 → Key} {st : BlockStore B}
    (hdel : ∀ b k, (st.delChunk b k).isSome)
    (hput : ∀ b k d, ∃ b', st.putNewChunk b k d = some (b', 0)) (hst : st.Bounded) {io : Io}
    (hio : ∀ off, io.pwrite off = .full) {os : Os P} {fd : ℤ} {n : ℕ} (hino : os.ino fd = some n)
    {buf : List UInt8} {offset : ℤ} (h₀ : 0 ≤ offset) (hmax : offset + buf.length < 2 ^ 63)
    {before : List StoreCall} {w : WriteState (B × List StoreCall) P}
    (h : Splitting doHash os n before buf offset w) (hlt : w.i < offset + buf.length) :
    ∃ w', writeBody doHash st.recorded io fd buf offset w = some w' ∧
      Splitting doHash os n before buf offset w' ∧
      (offset + buf.length - w'.i).toNat < (offset + buf.length - w.i).toNat := by
  obtain ⟨hok, hle, hstop, hat, hos, chunk, calls, hputs, hsplit⟩ := h
  have hino' : w.os.ino fd = some n := by
    rw [hos]
    exact hino
  obtain ⟨⟨s₁, ret⟩, hdel'⟩ := Option.isSome_iff_exists.1
    (recorded_del_isSome hdel w.store (readKey w.os io fd w.i w.hashKey))
  generalize hkey : readKey w.os io fd w.i w.hashKey = key at hdel'
  generalize hdata : blockData st.recorded w.store key buf offset w.i
    (chunkLen (offset + buf.length) w.i) = data
  obtain ⟨b', hb'⟩ := hput s₁.1 (doHash data) data
  have hput' : st.recorded.putNewChunk s₁ (doHash data) data =
      some ((b', s₁.2 ++ [.put (doHash data) data]), 0) := by
    simp [BlockStore.recorded, hb']
  have hbounded : st.recorded.Bounded := fun s => hst s.1
  have hcarries : Carries buf offset (blockIndex w.i) data := by
    rw [← hdata]
    exact carries_blockData hbounded hle hlt h₀ (hat hlt)
  refine ⟨_, writeBody_complete hio hino' h₀ hmax hle hlt hkey hdata hdel' hput', ?_, ?_⟩
  · refine ⟨rfl, by simp only; omega, add_chunkLen_le hstop, atBlock_next hle hlt, ?_,
      update chunk (blockIndex w.i) data, calls ++ [(doHash data, data)], ?_, ?_⟩
    · rw [hos]
      simp
    · rw [(recorded_delChunk hdel').2]
      simp [hputs]
    · simp only [Os.setContent_inodes, update_self]
      exact hsplit.next h₀ (hat hlt) hlt hcarries
  · have := chunkLen_pos hlt
    simp only
    omega

/-- The loop ends, with all blocks put. -/
theorem writeLoop_splits (doHash : List UInt8 → Key) {st : BlockStore B}
    (hdel : ∀ b k, (st.delChunk b k).isSome)
    (hput : ∀ b k d, ∃ b', st.putNewChunk b k d = some (b', 0)) (hst : st.Bounded) {io : Io}
    (hio : ∀ off, io.pwrite off = .full) {os : Os P} {fd : ℤ} {n : ℕ} (hino : os.ino fd = some n)
    {buf : List UInt8} {offset : ℤ} (h₀ : 0 ≤ offset) (hmax : offset + buf.length < 2 ^ 63)
    (store : B × List StoreCall) (junk : Key) :
    ∃ w chunk calls, writeLoop doHash st.recorded io fd buf offset ⟨os, store, junk, offset, true⟩ =
        some w ∧ w.ok = true ∧ w.os = os.setContent n (w.os.inodes n) ∧
      puts w.store.2 = puts store.2 ++ calls ∧
      Split doHash buf offset (offset + buf.length) (os.inodes n) (w.os.inodes n) calls chunk := by
  have hstart : Splitting doHash os n store.2 buf offset
      (⟨os, store, junk, offset, true⟩ : WriteState (B × List StoreCall) P) :=
    ⟨rfl, le_rfl, by simp, fun _ => Or.inl rfl, (os.setContent_self n).symm, fun _ => [], [],
      by simp, split_nil _ _ _ _ _⟩
  have hbody : ∀ w, Splitting doHash os n store.2 buf offset w →
      (w.ok && decide (uint64 w.i < uint64 (offset + buf.length))) = true →
      ∃ w', writeBody doHash st.recorded io fd buf offset w = some w' ∧
        Splitting doHash os n store.2 buf offset w' ∧
        (offset + buf.length - w'.i).toNat < (offset + buf.length - w.i).toNat := by
    intro w h hcond
    rw [Bool.and_eq_true, decide_eq_true_eq,
      writeCond_iff (h₀.trans h.le) hmax h.le_stop] at hcond
    exact h.step hdel hput hst hio hino h₀ hmax hcond.2
  obtain ⟨w, hw, h, hend⟩ := Loop.run_spec hbody hstart (by simp only; omega :
    (offset + buf.length - (⟨os, store, junk, offset, true⟩ :
      WriteState (B × List StoreCall) P).i).toNat < buf.length + 1)
  obtain ⟨chunk, calls, hputs, hsplit⟩ := h.split
  rw [h.ok, Bool.true_and, decide_eq_false_iff_not,
    writeCond_iff (h₀.trans h.le) hmax h.le_stop] at hend
  rw [show w.i = offset + buf.length by have := h.le_stop; omega] at hsplit
  exact ⟨w, chunk, calls, hw, h.ok, h.os_eq, hputs, hsplit⟩

/-- `fuse_write` ends, puts the blocks it touches in order, each with its bytes of the buffer,
writes their hashes over their entries and nothing else over the metafile, sets the size, and
returns the number of bytes. -/
theorem fuseWrite_splits (doHash : List UInt8 → Key) {st : BlockStore B}
    (hdel : ∀ b k, (st.delChunk b k).isSome)
    (hput : ∀ b k d, ∃ b', st.putNewChunk b k d = some (b', 0)) (hst : st.Bounded) {io : Io}
    (hio : ∀ off, io.pwrite off = .full) {c : Client (B × List StoreCall) P} {fh : ℕ} {fd : ℤ}
    {stSize : ℤ} {n : ℕ} (hctx : c.contexts fh = some ⟨fd, stSize⟩) (hino : c.os.ino fd = some n)
    {buf : List UInt8} {offset : ℤ} (h₀ : 0 ≤ offset) (hsize : buf.length < 2 ^ 31)
    (hmax : offset + buf.length < 2 ^ 63) (junk : Key) :
    ∃ (c' : Client (B × List StoreCall) P) (chunk : ℕ → List UInt8) (stSize' : ℤ),
      c.fuseWrite doHash st.recorded io fh buf offset junk =
        some (c', some (buf.length : ℤ)) ∧
      puts c'.store.2 = puts c.store.2 ++
        (touched offset (offset + buf.length)).map (fun b => (doHash (chunk b), chunk b)) ∧
      (∀ b ∈ touched offset (offset + buf.length), Carries buf offset b (chunk b) ∧
        entryBytes (c'.os.inodes n) b = (doHash (chunk b)).val) ∧
      (∀ b ∉ touched offset (offset + buf.length), HasEntry (c.os.inodes n) b →
        entryBytes (c'.os.inodes n) b = entryBytes (c.os.inodes n) b) ∧
      (∀ j < 16, j < (c.os.inodes n).length → (c'.os.inodes n)[j]? = (c.os.inodes n)[j]?) ∧
      c'.os = c.os.setContent n (c'.os.inodes n) ∧
      c'.contexts = update c.contexts fh (some ⟨fd, stSize'⟩) ∧
      (0 ≤ stSize → stSize < 2 ^ 63 → stSize' = max stSize (offset + buf.length)) := by
  obtain ⟨w, chunk, calls, hw, hok, hos, hputs, hsplit⟩ :=
    writeLoop_splits doHash hdel hput hst hio hino h₀ hmax c.store junk
  have hret : int32 (buf.length : ℤ) = buf.length := int32_of_range (by omega) (by omega)
  refine ⟨{ c with
      os := w.os
      store := w.store
      contexts := update c.contexts fh
        (some ⟨fd, grownSize stSize (offset + buf.length)⟩) },
    chunk, grownSize stSize (offset + buf.length), ?_, ?_, ?_, ?_, ?_, hos, rfl, ?_⟩
  · simp only [fuseWrite, hctx, Option.bind_some, hw, Option.map_some, hok, if_true, hret]
  · rw [hputs, hsplit.puts]
  · exact fun b hb => ⟨hsplit.carries b hb, hsplit.entry b hb⟩
  · exact fun b hb hentry => hsplit.rewritten.entry hb hentry
  · exact fun j h16 hj => hsplit.rewritten.header hj h16
  · exact fun hpos hlt => grownSize_eq hpos hlt (by omega) hmax

/-- Two bytes across a block boundary of an empty file. -/
theorem fuseWrite_splits_two :
    ∃ (c' : Client (Unit × List StoreCall) ℕ) (chunk : ℕ → List UInt8),
      (ofFile [] 0 ((), [])).fuseWrite firstByte OneFile.nullStore.recorded {} 0 [1, 2]
        4095 Key.zero = some (c', some 2) ∧
      puts c'.store.2 = [(firstByte (chunk 0), chunk 0), (firstByte (chunk 1), chunk 1)] ∧
      Carries [1, 2] 4095 0 (chunk 0) ∧ Carries [1, 2] 4095 1 (chunk 1) := by
  have htouched : touched 4095 (4095 + ([1, 2] : List UInt8).length) = [0, 1] := by decide
  have hctx : (ofFile [] 0 ((), ([] : List StoreCall))).contexts 0 = some ⟨3, 0⟩ := rfl
  have hino : (ofFile [] 0 ((), ([] : List StoreCall))).os.ino 3 = some 0 := rfl
  have hbounded : OneFile.nullStore.Bounded := fun _ _ _ _ _ h => by cases h
  have hio : ∀ off, ({} : Io).pwrite off = .full := fun _ => rfl
  obtain ⟨c', chunk, stSize', hwrite, hputs, hblocks, -⟩ :=
    fuseWrite_splits firstByte (fun _ _ => rfl) (fun _ _ _ => ⟨(), rfl⟩) hbounded
      hio hctx hino (by decide) (by decide : ([1, 2] : List UInt8).length < 2 ^ 31)
      (by decide : (4095 : ℤ) + ([1, 2] : List UInt8).length < 2 ^ 63) Key.zero
  rw [htouched] at hputs hblocks
  exact ⟨c', chunk, hwrite, hputs, (hblocks 0 (by simp)).1, (hblocks 1 (by simp)).1⟩

end Client

end Agilefs
