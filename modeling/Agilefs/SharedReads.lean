import Agilefs.SharedWrites

/-!
# Reads at the same time

A read that runs while others write gets each block from one version of the file : as it was before
the batch, or as one of the writes makes it (`Batch.Sees`). There is one more outcome. `fuse_write`
writes the key of a block to the metafile before it puts the block, so a read between these two
finds a key without a block : `block_read` fails, the buffer keeps what it had there and `rdcount`
loses one. `readAct_keeps` : the steps of a read keep this account of the blocks it has read.

`D` are requests that have returned before : what they wrote is seen for certain.
-/

namespace Agilefs

open CInt Posix Function ByteFile

variable {B P ι : Type*}

/-- A read that does not go past the end of the block. -/
theorem BlockStore.Lasting.blockRead_part {st : BlockStore B} {v : StoreView B}
    (hst : st.Lasting v) {s : B} {key : Key} {g : Option (List UInt8)}
    (hg : v.chunk s key = g) {n off : ℕ} (hoff : off < 4096) (hn : n ≤ 4096 - off) :
    st.blockRead s key n off = g.map fun d => ByteFile.pread d n off := by
  cases g with
  | none => exact hst.absent s key n off hg
  | some d =>
    obtain ⟨bytes, hread, hmin, hmax, hbytes⟩ := hst.present s key d n off hg hoff
    rw [hread, Option.map_some, Option.some_inj]
    refine List.ext_getElem? fun j => ?_
    rw [getElem?_pread]
    split_ifs with hj
    · exact hbytes j (by omega)
    · exact List.getElem?_eq_none (by omega)

/-- The part of a block that is read, if it is, in the buffer. -/
theorem length_pwrite_part {buf : ByteFile} {n e : ℕ} (h : e + n ≤ buf.length)
    {g : Option (List UInt8)} {off : ℕ} :
    (buf.pwrite ((g.map fun d => ByteFile.pread d n off).getD []) e).length = buf.length := by
  cases g with
  | none => rw [Option.map_none, Option.getD_none, pwrite_nil]
  | some d =>
    rw [Option.map_some, Option.getD_some, length_pwrite_of_le]
    rw [length_pread]
    omega

theorem getElem?_pwrite_part {buf : ByteFile} {n e : ℕ} (h : e + n ≤ buf.length) (hn : 0 < n)
    {g : Option (List UInt8)} {off : ℕ} (hlen : ∀ d, g = some d → off + n ≤ d.length) (p : ℕ) :
    (buf.pwrite ((g.map fun d => ByteFile.pread d n off).getD []) e)[p]? =
      if e ≤ p ∧ p < e + n then match g with
        | some d => d[off + (p - e)]?
        | none => buf[p]?
      else buf[p]? := by
  cases g with
  | none => rw [Option.map_none, Option.getD_none, pwrite_nil, ite_self]
  | some d =>
    have hd := hlen d rfl
    have hread : (ByteFile.pread d n off).length = n := by
      rw [length_pread]
      omega
    rw [Option.map_some, Option.getD_some,
      getElem?_pwrite _ (List.ne_nil_of_length_pos (hread.symm ▸ hn)), hread]
    split_ifs with h₁ h₂ h₂
    · omega
    · rw [List.getElem?_eq_getElem (by omega), Option.getD_some]
    · rw [getElem?_pread, if_pos (by omega)]
    · omega
    · omega
    · rfl

namespace Batch

variable {doHash : List UInt8 → Key} {v : StoreView B} {S : Set (List UInt8)} {c₀ : Client B P}
  {bytes : ℕ → ByteFile}

/-! ## What a read gets -/

/-- What a read of file `n` may get of block `b` : the block as a write makes it that has come to
this block, nothing if this write may not have put it yet, or the block as it was. -/
def Sees (T : Batch ι doHash v S c₀ bytes) (D : ι → Prop) (c : Client B P) (n b : ℕ)
    (got : Option (List UInt8)) : Prop :=
  (∃ i, T.Wrote i c n b ∧ (got = some ((T.job i).newBlock b) ∨
    got = none ∧ v.chunk c₀.store ((T.job i).newKey b) = none ∧ ¬D i)) ∨
  got = v.chunk c₀.store (entryKey (c₀.os.inodes n) b) ∧ ∀ i, D i → ¬T.Writes i n b

/-- The key a read of file `n` may get of block `b`. -/
def Names (T : Batch ι doHash v S c₀ bytes) (D : ι → Prop) (c : Client B P) (n b : ℕ) (key : Key) :
    Prop :=
  (∃ i, T.Wrote i c n b ∧ key = (T.job i).newKey b ∧
    (D i → v.chunk c.store key = some ((T.job i).newBlock b))) ∨
  key = entryKey (c₀.os.inodes n) b ∧ ∀ i, D i → ¬T.Writes i n b

/-- What block `b` counts in a request, if `got` is read of it. -/
def countOf (q : IoCall) (b : ℕ) (got : Option (List UInt8)) : ℤ :=
  if got.isSome then Client.chunkLen q.stop (partStart q.offset b) else -1

/-- Byte `p` of the buffer, if the block it is from is read as `got`. -/
def byteOf (q : IoCall) (got : ℕ → Option (List UInt8)) (p : ℕ) : Option UInt8 :=
  match got ((q.offset.toNat + p) / 4096) with
  | some d => d[(q.offset.toNat + p) % 4096]?
  | none => q.buf[p]?

/-- What request `i` has read before byte `y`. -/
structure Got (T : Batch ι doHash v S c₀ bytes) (D : ι → Prop) (i : ι) (c : Client B P)
    (buf : List UInt8) (rdcount y : ℤ) (got : ℕ → Option (List UInt8)) : Prop where
  length : buf.length = (T.call i).buf.length
  sees : ∀ b ∈ touched (T.call i).offset y, T.Sees D c (T.node i) b (got b)
  bytes : ∀ p : ℕ, (T.call i).offset + p < y → buf[p]? = byteOf (T.call i) got p
  rest : ∀ p : ℕ, y ≤ (T.call i).offset + p → buf[p]? = (T.call i).buf[p]?
  count : rdcount = int32 ((touched (T.call i).offset y).map fun b =>
    countOf (T.call i) b (got b)).sum

/-- The variables of request `i` in its loop. -/
structure Scans (T : Batch ι doHash v S c₀ bytes) (i : ι) (x : ReadVars) : Prop where
  fd : x.fd = T.fd i
  stop : x.stop = (T.call i).stop
  ge : (T.call i).offset ≤ x.i
  lt : x.i < (T.call i).stop
  atBlock : AtBlock (T.call i).offset x.i

/-- What holds when a read is about to take a step. -/
def ReadInv (T : Batch ι doHash v S c₀ bytes) (D : ι → Prop) (i : ι) (c : Client B P) :
    ReadPc → Prop
  | .start => True
  | .entry x => T.Scans i x ∧ ∃ got, T.Got D i c x.buf x.rdcount x.i got
  | .block x => T.Scans i x ∧ (∃ got, T.Got D i c x.buf x.rdcount x.i got) ∧
    T.Names D c (T.node i) (blockIndex x.i) x.hashKey
  | .returned buf ret => ∃ got rdcount, ret = some rdcount ∧
    T.Got D i c buf rdcount (T.call i).stop got

/-- What the requests `D` wrote is there. -/
def Settled (T : Batch ι doHash v S c₀ bytes) (D : ι → Prop) (c : Client B P) : Prop :=
  ∀ i, D i → (T.call i).kind = .write → T.Done i c

/-- No read asks for more of a block than it gets. -/
def Aligned (T : Batch ι doHash v S c₀ bytes) : Prop :=
  ∀ i, (T.call i).kind = .read → (T.call i).offset % 4096 = 0 ∨
    (T.call i).offset % 4096 + (T.call i).buf.length ≤ 4096

variable {T : Batch ι doHash v S c₀ bytes} {st : BlockStore B} {D : ι → Prop} {i : ι}
  {c c' : Client B P} {x : ReadVars}

/-! ## The keys and the blocks -/

/-- The entry of a block of a request. -/
theorem names_entry (h : T.Frame c) (hD : T.Settled D c) {b : ℕ} (hb : b ∈ (T.call i).blocks) :
    T.Names D c (T.node i) b (entryKey (c.os.inodes (T.node i)) b) := by
  have hentry := h.hasEntry hb
  by_cases hsettled : ∃ j, D j ∧ T.Writes j (T.node i) b
  · obtain ⟨j, hj, hwrites⟩ := hsettled
    have hdone := hD j hj hwrites.1
    have hwrote : T.Wrote j c (T.node i) b := by
      refine ⟨hwrites, ?_⟩
      rw [← hwrites.2.1]
      exact hdone.new b hwrites.2.2 hwrites.2.2
    have hkey : entryKey (c.os.inodes (T.node i)) b = (T.job j).newKey b :=
      Subtype.ext (hentry.entryKey_val.trans hwrote.2)
    refine Or.inl ⟨j, hwrote, hkey, fun _ => ?_⟩
    rw [hkey]
    exact hdone.stored b hwrites.2.2
  · rcases h.entries (T.node i) b with hold | ⟨j, hwrote⟩
    · refine Or.inr ⟨?_, fun j hj hwrites => hsettled ⟨j, hj, hwrites⟩⟩
      rw [entryKey, hold, ← entryKey]
    · exact Or.inl ⟨j, hwrote, Subtype.ext (hentry.entryKey_val.trans hwrote.2),
        fun hj => (hsettled ⟨j, hj, hwrote.1⟩).elim⟩

theorem Sees.rely {j : ι} {n b : ℕ} {got : Option (List UInt8)} (h : T.Sees D c n b got)
    (hG : T.Guarantees j c c') : T.Sees D c' n b got :=
  h.imp_left fun ⟨i, hwrote, hgot⟩ => ⟨i, hwrote.rely hG, hgot⟩

theorem Got.rely {j : ι} {buf : List UInt8} {rdcount y : ℤ} {got : ℕ → Option (List UInt8)}
    (h : T.Got D i c buf rdcount y got) (hG : T.Guarantees j c c') :
    T.Got D i c' buf rdcount y got :=
  ⟨h.length, fun b hb => (h.sees b hb).rely hG, h.bytes, h.rest, h.count⟩

theorem Names.rely {j : ι} {n b : ℕ} {key : Key} (h : T.Names D c n b key)
    (hG : T.Guarantees j c c') : T.Names D c' n b key :=
  h.imp_left fun ⟨i, hwrote, hkey, hsome⟩ =>
    ⟨i, hwrote.rely hG, hkey, fun hi => hG.kept _ _ (hsome hi)⟩

/-- The chunk a key leads to. -/
theorem Names.sees (h : T.Frame c) (hfresh : T.Fresh) {b : ℕ} (hb : b ∈ (T.call i).blocks)
    {key : Key} (hkey : T.Names D c (T.node i) b key) :
    T.Sees D c (T.node i) b (v.chunk c.store key) := by
  rcases hkey with ⟨j, hwrote, rfl, hsome⟩ | ⟨rfl, hout⟩
  · refine Or.inl ⟨j, hwrote, ?_⟩
    cases hc : v.chunk c.store ((T.job j).newKey b) with
    | some d =>
      exact Or.inl (congrArg some (h.addressed.eq_of_chunk T.inj (hfresh j _ b hwrote.1) hc))
    | none =>
      refine Or.inr ⟨rfl, Option.eq_none_iff_forall_ne_some.2 fun d hd => ?_, fun hj => ?_⟩
      · rw [h.kept _ _ hd] at hc
        cases hc
      · rw [hsome hj] at hc
        cases hc
  · have hold : v.chunk c₀.store (entryKey (c₀.os.inodes (T.node i)) b) =
        some ((T.job i).oldBlock b) := (T.covered hb).2
    exact Or.inr ⟨(h.kept _ _ hold).trans hold.symm, hout⟩

/-! ## The steps of a read -/

theorem Scans.mem_blocks (h : T.Scans i x) : blockIndex x.i ∈ (T.call i).blocks :=
  blockIndex_mem_touched (T.nonneg i) h.ge h.lt

/-- What is said to be read of the block changes nothing about the blocks before. -/
theorem Scans.update_of_mem (h : T.Scans i x) {got : ℕ → Option (List UInt8)}
    {g : Option (List UInt8)} {b : ℕ} (hb : b ∈ touched (T.call i).offset x.i) :
    update got (blockIndex x.i) g b = got b := by
  refine update_of_ne ?_ _ _
  rintro rfl
  exact blockIndex_not_mem_touched (T.nonneg i) h.atBlock hb

/-- How much is asked of the block. -/
theorem Scans.length_eq (h : T.Scans i x) :
    (min 4096 (int64 ((T.call i).buf.length - x.i + (T.call i).offset))).toNat =
      asked (T.call i).stop x.i := by
  have h₀ := T.nonneg i
  have hmax := T.lt_stop i
  have hge := h.ge
  have hlt := h.lt
  unfold IoCall.stop at hmax hlt ⊢
  rw [int64_of_range (by omega) (by omega), asked]
  congr 2
  omega

/-- It does not go past the end of the block. -/
theorem Scans.inside (h : T.Scans i x) (hfit : (T.call i).offset % 4096 = 0 ∨
    (T.call i).offset % 4096 + (T.call i).buf.length ≤ 4096) :
    (x.i % 4096).toNat + asked (T.call i).stop x.i ≤ 4096 := by
  have hstop : (T.call i).stop = (T.call i).offset + (T.call i).buf.length := rfl
  rw [asked_eq_chunkLen (by omega) h.atBlock, Client.chunkLen]
  omega

/-- How far the loop goes on. -/
theorem Scans.advance (h : T.Scans i x) :
    min (int64 ((T.call i).buf.length + (T.call i).offset - x.i)) (4096 - x.i % 4096) =
      Client.chunkLen (T.call i).stop x.i := by
  have h₀ := T.nonneg i
  have hmax := T.lt_stop i
  have hge := h.ge
  have hlt := h.lt
  unfold IoCall.stop at hmax hlt ⊢
  rw [int64_of_range (by omega) (by omega), Client.chunkLen]
  omega

/-- What the block counts. -/
theorem Scans.countOf_eq (h : T.Scans i x) {g : Option (List UInt8)}
    (hlen : ∀ d, g = some d → d.length = 4096) :
    countOf (T.call i) (blockIndex x.i) g =
      ((g.map fun d => ByteFile.pread d (Client.chunkLen (T.call i).stop x.i)
        (x.i % 4096).toNat).map fun d => (d.length : ℤ)).getD (-1) := by
  rw [countOf, partStart_blockIndex (T.nonneg i) h.atBlock]
  cases g with
  | none => rfl
  | some d =>
    have hd := hlen d rfl
    simp only [Option.isSome_some, if_true, Option.map_some, Option.getD_some, length_pread]
    unfold Client.chunkLen
    omega

/-- The bytes of the blocks before, and those of the block. -/
theorem Scans.byteOf_update (h : T.Scans i x) {got : ℕ → Option (List UInt8)}
    {g : Option (List UInt8)} {p : ℕ}
    (hp : (T.call i).offset + p < x.i + Client.chunkLen (T.call i).stop x.i) :
    byteOf (T.call i) (update got (blockIndex x.i) g) p =
      if (x.i - (T.call i).offset).toNat ≤ p then match g with
        | some d => d[(x.i % 4096).toNat + (p - (x.i - (T.call i).offset).toNat)]?
        | none => (T.call i).buf[p]?
      else byteOf (T.call i) got p := by
  have h₀ := T.nonneg i
  have hge := h.ge
  have hpart : x.i % 4096 + Client.chunkLen (T.call i).stop x.i ≤ 4096 := by
    unfold Client.chunkLen
    omega
  split_ifs with hin
  · have hdiv : ((T.call i).offset.toNat + p) / 4096 = blockIndex x.i := by
      unfold blockIndex
      omega
    have hmod : ((T.call i).offset.toNat + p) % 4096 =
        (x.i % 4096).toNat + (p - (x.i - (T.call i).offset).toNat) := by omega
    rw [byteOf, hdiv, hmod, update_self]
  · have hdiv : ((T.call i).offset.toNat + p) / 4096 ≠ blockIndex x.i := by
      have hat := h.atBlock
      unfold AtBlock at hat
      unfold blockIndex
      omega
    rw [byteOf, update_of_ne hdiv, byteOf]

/-- At the test of the loop. -/
theorem readTest_keeps (hfd : x.fd = T.fd i) (hstop : x.stop = (T.call i).stop)
    (hge : (T.call i).offset ≤ x.i) (hle : x.i ≤ (T.call i).stop)
    (hat : x.i < (T.call i).stop → AtBlock (T.call i).offset x.i)
    {got : ℕ → Option (List UInt8)} (h : T.Got D i c x.buf x.rdcount x.i got) :
    T.ReadInv D i c (Client.readTest x) := by
  rw [Client.readTest, hstop]
  split_ifs with hlt
  · exact ⟨⟨hfd, hstop, hge, hlt, hat hlt⟩, got, h⟩
  · rw [le_antisymm hle (not_lt.1 hlt)] at h
    exact ⟨got, x.rdcount, rfl, h⟩

/-- One more block, of which `g` is read. -/
theorem Got.next (hst : st.Lasting v) {g : Option (List UInt8)} {s : B} {key : Key}
    {got : ℕ → Option (List UInt8)} (hx : T.Scans i x)
    (hfit : (T.call i).offset % 4096 = 0 ∨
      (T.call i).offset % 4096 + (T.call i).buf.length ≤ 4096)
    (h : T.Got D i c x.buf x.rdcount x.i got) (hg : v.chunk s key = g)
    (hsees : T.Sees D c (T.node i) (blockIndex x.i) g) :
    T.Got D i c
      (ByteFile.pwrite x.buf ((st.blockRead s key (asked (T.call i).stop x.i)
        (x.i % 4096)).getD []) (x.i - (T.call i).offset).toNat)
      (int32 (x.rdcount + ((st.blockRead s key (asked (T.call i).stop x.i)
        (x.i % 4096)).map fun d => (d.length : ℤ)).getD (-1)))
      (x.i + Client.chunkLen (T.call i).stop x.i) (update got (blockIndex x.i) g) := by
  have h₀ := T.nonneg i
  have hge := hx.ge
  have hlen := h.length
  have hstop : (T.call i).stop = (T.call i).offset + (T.call i).buf.length := rfl
  have hpos := Client.chunkLen_pos hx.lt
  have hle := Client.add_chunkLen_le hx.lt.le
  have hpart : Client.chunkLen (T.call i).stop x.i ≤ 4096 - (x.i % 4096).toNat := by
    unfold Client.chunkLen
    omega
  have hmod : (x.i % 4096).toNat < 4096 := by omega
  have hread := hst.blockRead_part hg hmod hpart
  rw [← asked_eq_chunkLen (by omega) hx.atBlock, Int.toNat_of_nonneg (by omega)] at hread
  rw [hread, asked_eq_chunkLen (by omega) hx.atBlock]
  set n := Client.chunkLen (T.call i).stop x.i with hn
  set off := (x.i % 4096).toNat with hoff
  have hnext : touched (T.call i).offset (x.i + n) =
      touched (T.call i).offset x.i ++ [blockIndex x.i] :=
    touched_next h₀ hx.atBlock hx.lt
  set e := (x.i - (T.call i).offset).toNat with he
  have hfits : e + n ≤ x.buf.length := by omega
  have hblock : ∀ d, g = some d → d.length = 4096 := fun d hd => hst.length s key d (hg.trans hd)
  have hlong : ∀ d, g = some d → off + n ≤ d.length := fun d hd => by
    have := hblock d hd
    omega
  have hbuf := getElem?_pwrite_part hfits hpos hlong
  refine ⟨?_, fun b hb => ?_, fun p hp => ?_, fun p hp => ?_, ?_⟩
  · rw [length_pwrite_part hfits, hlen]
  · rw [hnext, List.mem_append, List.mem_singleton] at hb
    rcases hb with hb | rfl
    · rw [hx.update_of_mem hb]
      exact h.sees b hb
    · rwa [update_self]
  · rw [hbuf, hx.byteOf_update hp]
    by_cases hin : e ≤ p
    · rw [if_pos ⟨hin, by omega⟩, if_pos hin, ← h.rest p (by omega)]
      cases g <;> rfl
    · rw [if_neg fun hcond => hin hcond.1, if_neg hin, h.bytes p (by omega)]
  · rw [hbuf, if_neg (by omega), h.rest p (by omega)]
  · have hsame : (touched (T.call i).offset x.i).map (fun b =>
        countOf (T.call i) b (update got (blockIndex x.i) g b)) =
        (touched (T.call i).offset x.i).map fun b => countOf (T.call i) b (got b) :=
      List.map_congr_left fun b hb => by rw [hx.update_of_mem hb]
    rw [h.count, int32_add, hnext, List.map_append, List.sum_append, hsame, List.map_singleton,
      List.sum_singleton, update_self, hx.countOf_eq hblock]

/-- A step of a read changes nothing, and keeps what holds. -/
theorem readAct_keeps (hst : st.Lasting v) (hfresh : T.Fresh) (haligned : T.Aligned)
    (hkind : (T.call i).kind = .read) (h : T.Frame c) (hD : T.Settled D c) {pc pc' : ReadPc}
    (hpc : T.ReadInv D i c pc)
    (hact : Client.readAct st {} (T.call i).fh (T.call i).buf (T.call i).offset (T.call i).junk c
      pc = some (c', pc')) : c' = c ∧ T.ReadInv D i c pc' := by
  have h₀ := T.nonneg i
  have hinside := T.inside i
  have hmax := T.lt_stop i
  have hstop : (T.call i).stop = (T.call i).offset + (T.call i).buf.length := rfl
  cases pc with
  | start =>
    have hctx := h.context i
    have hlt := (T.describes i).lt
    have hread := Client.readStop_of_le h₀ (hstop ▸ hinside) (by omega)
    simp only [Client.readAct, hctx, Option.map_some, Option.some_inj, Prod.mk.injEq, hread]
      at hact
    obtain ⟨rfl, rfl⟩ := hact
    have hgot : T.Got D i c (T.call i).buf 0 (T.call i).offset fun _ => none := by
      refine ⟨rfl, fun b hb => ?_, fun p hp => by omega, fun p _ => rfl, ?_⟩
      · rw [touched_self] at hb
        cases hb
      · rw [touched_self]
        rfl
    exact ⟨rfl, readTest_keeps rfl rfl le_rfl (by simp only; omega) (fun _ => Or.inl rfl) hgot⟩
  | entry x =>
    obtain ⟨hx, hgot⟩ := hpc
    have hread := Os.pread_full (h.ino i) 16 (blockIndex x.i * 16 + 16)
    rw [← entryOffset_eq (h₀.trans hx.ge)] at hread
    have hcontent : c.os.content (T.fd i) = c.os.inodes (T.node i) := by
      simp [Os.content, h.ino i]
    have hmem := hx.mem_blocks
    simp only [Client.readAct, hx.fd, hread, hcontent, Option.some_inj, Prod.mk.injEq] at hact
    obtain ⟨rfl, rfl⟩ := hact
    have hkey : x.hashKey.load (entryBytes (c.os.inodes (T.node i)) (blockIndex x.i)) =
        entryKey (c.os.inodes (T.node i)) (blockIndex x.i) := (h.hasEntry hmem).load_eq _
    refine ⟨rfl, ⟨rfl, hx.stop, hx.ge, hx.lt, hx.atBlock⟩, hgot, ?_⟩
    exact hkey.symm ▸ names_entry h hD hmem
  | block x =>
    obtain ⟨hx, ⟨got, hgot⟩, hnames⟩ := hpc
    have hge := hx.ge
    simp only [Client.readAct, hx.length_eq, hx.advance, Option.some_inj, Prod.mk.injEq] at hact
    obtain ⟨rfl, rfl⟩ := hact
    refine ⟨rfl, readTest_keeps hx.fd hx.stop ?_ (Client.add_chunkLen_le hx.lt.le)
      (atBlock_next hx.ge hx.lt) (hgot.next hst hx (haligned i hkind) rfl
        (hnames.sees h hfresh hx.mem_blocks))⟩
    simp only
    omega
  | returned buf ret => cases hact

end Batch

end Agilefs
