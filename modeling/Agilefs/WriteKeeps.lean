import Agilefs.WriteRun

/-!
# The bytes a write does not write

Outside its range a write should leave the bytes of the file in the chunks it puts, and zeros in
the blocks it adds. `fuseWrite_keeps_iff` : it does so if and only if its last block has an entry
already, or the block in `hash_key` at that time, which is read in place of the old block, is zero
outside the range.
-/

namespace Agilefs

open CInt Posix Function ByteFile

variable {B P : Type*}

namespace WriteJob

variable (J : WriteJob)

/-- The last block written. -/
def last : ℕ := blockIndex (J.stop - 1)

/-- What is read for a last block that has no entry : the block before it, or the chunk of the key
the stack had in `hash_key`. -/
def spill : List UInt8 :=
  if J.first < J.last then J.newBlock (J.last - 1) else (J.chunk J.junk).getD zeroBlock

/-- The last block has an entry, or what is read for it is zero outside the range written. -/
def TailClear : Prop :=
  J.last < J.live ∨ ∀ j < 4096, ¬J.Inside J.last j → J.spill.getD j 0 = 0

/-- Of a file of size `stSize` : the chunk `d` put for block `b` has the old bytes outside the range
written, and zeros if the block is new. -/
def KeepsRest (stSize : ℤ) (b : ℕ) (d : List UInt8) : Prop :=
  ∀ j < 4096, ¬J.Inside b j →
    ((b : ℤ) * 4096 + j < stSize → d[j]? = (J.oldBlock b)[j]?) ∧
    (¬HasEntry J.f b → d[j]? = some 0)

/-- A write of at least one byte ends in its last block. -/
theorem doneTo_stop (hbuf : J.buf ≠ []) (h₀ : 0 ≤ J.offset) :
    doneTo J.offset J.stop = J.last + 1 := by
  have hpos : 0 < J.buf.length := List.length_pos_of_ne_nil hbuf
  unfold last stop
  rw [doneTo, if_neg (by omega)]
  unfold blocks blockIndex
  omega

variable {J}

/-- All of a block is written that is neither the first nor the last, or where the first begins
with the range. -/
theorem inside_of_lt_last (h₀ : 0 ≤ J.offset) {b j : ℕ} (hj : j < 4096) (hb : J.first ≤ b)
    (halign : b = J.first → J.offset % 4096 = 0) (hlt : b < J.last) : J.Inside b j := by
  unfold first at hb halign
  unfold last at hlt
  unfold Inside
  unfold blockIndex at hb halign hlt
  omega

section Keeps

variable {S : Set (List UInt8)} {v : StoreView B} {n : ℕ} {data : ℕ → List UInt8}
  {w : Client.WriteState (B × List StoreCall) P}

/-- The data of the blocks before the last one. -/
theorem Running.data_eq (h : J.Running S v n data w (J.last + 1)) (h₀ : 0 ≤ J.offset)
    (halign : J.live ≤ J.first → J.offset % 4096 = 0) {b : ℕ} (hb : J.first ≤ b)
    (hlt : b < J.last) : data b = J.newBlock b := by
  by_cases hlive : b < J.live
  · exact h.dataLive b hb (by omega) hlive
  · obtain ⟨base, hdata, -⟩ := h.dataBehind b hb (by omega) (not_lt.1 hlive)
    rw [hdata]
    refine J.overwritten_congr fun j hj hout => (hout ?_).elim
    exact inside_of_lt_last h₀ hj hb (fun hfirst => halign (by omega)) hlt

/-- The data of a last block without an entry. -/
theorem Running.data_last (h : J.Running S v n data w (J.last + 1)) (h₀ : 0 ≤ J.offset)
    (halign : J.live ≤ J.first → J.offset % 4096 = 0) (htail : J.f.length ≤ J.live * 16 + 16)
    (hfirst : J.first ≤ J.last) (hlast : J.live ≤ J.last) :
    data J.last = J.overwritten J.spill J.last := by
  obtain ⟨base, hdata, hbase⟩ := h.dataBehind J.last hfirst (by omega) hlast
  rw [hdata, hbase htail, spill]
  by_cases hlt : J.first < J.last
  · rw [if_pos hlt, if_pos hlt, h.data_eq h₀ halign (by omega) (by omega)]
  · rw [if_neg hlt, if_neg hlt]

/-- A write that has run to its end, from inside the file or its end. -/
theorem Running.keepsRest_iff (hJ : J.Ready S) (h : J.Running S v n data w (J.last + 1))
    (h₀ : 0 ≤ J.offset) {stSize : ℤ} (hlive : J.live = blocks stSize) (hoff : J.offset ≤ stSize)
    (htail : J.f.length ≤ J.live * 16 + 16) (hfirst : J.first ≤ J.last) :
    (∀ b, J.first ≤ b → b ≤ J.last → J.KeepsRest stSize b (data b)) ↔ J.TailClear := by
  have halign : J.live ≤ J.first → J.offset % 4096 = 0 := by
    intro hle
    rw [hlive] at hle
    unfold first blockIndex blocks at hle
    omega
  constructor
  · intro hkeep
    by_cases hlast : J.last < J.live
    · exact Or.inl hlast
    refine Or.inr fun j hj hout => ?_
    have hzero := (hkeep J.last hfirst le_rfl j hj hout).2 (mt J.hasEntry_iff_live.1 hlast)
    rw [h.data_last h₀ halign htail hfirst (not_lt.1 hlast),
      getElem?_overwritten_outside hj hout] at hzero
    exact Option.some.inj hzero
  · intro hclear b hb hbl j hj hout
    by_cases hb' : b < J.live
    · -- the old block has been read
      refine ⟨fun _ => ?_, fun hnone => (hnone (J.hasEntry_iff_live.2 hb')).elim⟩
      have hlen := hJ.length_oldBlock b
      rw [h.dataLive b hb (by omega) hb', newBlock, getElem?_overwritten_outside hj hout,
        List.getD_eq_getElem?_getD, List.getElem?_eq_getElem (by omega), Option.getD_some]
    · have hsize : ¬(b : ℤ) * 4096 + j < stSize := by
        rw [hlive, lt_blocks_iff] at hb'
        omega
      refine ⟨fun hlt => (hsize hlt).elim, fun _ => ?_⟩
      have hbeq : b = J.last := by
        by_contra hne
        exact hout (inside_of_lt_last h₀ hj hb (fun heq => halign (by omega)) (by omega))
      subst hbeq
      rw [h.data_last h₀ halign htail hfirst (not_lt.1 hb'), getElem?_overwritten_outside hj hout,
        hclear.resolve_left hb' j hj hout]

end Keeps

end WriteJob

namespace Client

/-- A metafile that ends with the entries of its blocks. -/
theorem live_eq_blocks {J : WriteJob} {stSize : ℤ} (hentry : ∀ b < blocks stSize, HasEntry J.f b)
    (hend : J.f.length ≤ blocks stSize * 16 + 16) : J.live = blocks stSize := by
  unfold WriteJob.live
  rcases Nat.eq_zero_or_pos (blocks stSize) with h | h
  · omega
  · have := hasEntry_iff.1 (hentry (blocks stSize - 1) (by omega))
    omega

/-- Over a reference-counted store, a write that starts inside the file or at its end and succeeds
keeps the bytes of the file outside its range, and adds zeros, if and only if `TailClear`. -/
theorem fuseWrite_keeps_iff {st : BlockStore B} {v : StoreView B} (hst : st.RefCounted v)
    {doHash : List UInt8 → Key} {S : Set (List UInt8)} (hinj : S.InjOn doHash) {io : Io}
    (hio : ∀ off, io.pread off = .full) {c : Client (B × List StoreCall) P} {fh : ℕ} {fd : ℤ}
    {stSize : ℤ} {n : ℕ} (hctx : c.contexts fh = some ⟨fd, stSize⟩) (hino : c.os.ino fd = some n)
    (hlog : c.store.2 = []) (hentry : ∀ b < blocks stSize, HasEntry (c.os.inodes n) b)
    (hend : (c.os.inodes n).length ≤ blocks stSize * 16 + 16)
    (hheld : ∀ k, entryCount (c.os.inodes n) (blocks stSize) k ≤ v.refs c.store.1 k)
    (haddr : Addressed doHash S (v.chunk c.store.1)) {buf : List UInt8} (hbuf : buf ≠ [])
    {offset : ℤ} (h₀ : 0 ≤ offset) (hoff : offset ≤ stSize) (hmax : offset + buf.length < 2 ^ 63)
    (junk : Key) {c' : Client (B × List StoreCall) P} {ret : ℤ}
    (hrun : c.fuseWrite doHash st.recorded io fh buf offset junk = some (c', some ret))
    (hS : ∀ x ∈ puts c'.store.2, x.2 ∈ S) :
    ∃ data : ℕ → List UInt8,
      puts c'.store.2 = (touched offset (offset + buf.length)).map
        (fun b => (doHash (data b), data b)) ∧
      ((∀ b ∈ touched offset (offset + buf.length),
          (c.writeJob v doHash n buf offset junk).KeepsRest stSize b (data b)) ↔
        (c.writeJob v doHash n buf offset junk).TailClear) := by
  set J := c.writeJob v doHash n buf offset junk with hJdef
  have hlive : J.live = blocks stSize := live_eq_blocks hentry hend
  have hready : J.Ready S := writeJob_ready hst hinj haddr (by rw [← hJdef, hlive]; exact hheld)
  obtain ⟨w, hw, hok, hc'⟩ := fuseWrite_some hctx hrun
  have hstore : w.store = c'.store := by rw [hc']
  have hbegin : c.store = (c.store.1, []) := by rw [← hlog]
  rw [hbegin] at hw
  obtain ⟨data, hrunning⟩ := (WriteJob.writeLoop_job hst hready hio hino h₀ hmax rfl rfl rfl hw
    (by rw [hstore]; exact hS)).1 hok
  have hpos : 0 < buf.length := List.length_pos_of_ne_nil hbuf
  have hdone : WriteJob.doneTo J.offset J.stop = J.last + 1 := J.doneTo_stop hbuf h₀
  have htouched : touched offset (offset + buf.length) =
      List.range' J.first (J.last + 1 - J.first) := by
    rw [← hdone]
    exact WriteJob.touched_eq _ _
  have hfirst : J.first ≤ J.last := by
    change blockIndex offset ≤ blockIndex (offset + buf.length - 1)
    unfold blockIndex
    omega
  rw [hdone] at hrunning
  refine ⟨data, ?_, ?_⟩
  · rw [← hstore, htouched]
    exact hrunning.putLog
  · have hiff := hrunning.keepsRest_iff hready h₀ hlive hoff (by rw [hlive]; exact hend) hfirst
    rw [← hiff, htouched]
    simp only [List.mem_range'_1]
    exact forall_congr' fun b => ⟨fun h h₁ h₂ => h ⟨h₁, by omega⟩, fun h hb => h hb.1 (by omega)⟩

/-- An empty file and an empty table. -/
def emptyFile : Client (Table × List StoreCall) ℕ := ofFile [] 0 (fun _ => none, [])

/-- One byte written to an empty file. -/
theorem fuseWrite_keeps_one :
    ∃ c' : Client (Table × List StoreCall) ℕ,
      emptyFile.fuseWrite firstByte (table true).recorded {} 0 [1] 0 Key.zero = some (c', some 1) ∧
      ∃ data : ℕ → List UInt8, puts c'.store.2 = [(firstByte (data 0), data 0)] ∧
        (emptyFile.writeJob Table.view firstByte 0 [1] 0 Key.zero).KeepsRest 0 0 (data 0) := by
  have hrun : (emptyFile.fuseWrite firstByte (table true).recorded {} 0 [1] 0 Key.zero).map
      (fun r => ((puts r.1.store.2).length, r.2)) = some (1, some 1) := by
    decide +kernel
  obtain ⟨⟨c', ret⟩, hwrite, hres⟩ := Option.map_eq_some_iff.1 hrun
  obtain ⟨hputs, rfl⟩ := Prod.mk.inj hres
  obtain ⟨x, hx⟩ := List.length_eq_one_iff.1 hputs
  have haddr : Addressed firstByte {x.2} (Table.view.chunk emptyFile.store.1) :=
    fun k d hd => by cases hd
  have hio : ∀ off, ({} : Io).pread off = .full := fun _ => rfl
  have hctx : emptyFile.contexts 0 = some ⟨3, 0⟩ := rfl
  have hino : emptyFile.os.ino 3 = some 0 := rfl
  obtain ⟨data, hdata, hiff⟩ := fuseWrite_keeps_iff (table_refCounted true)
    (Set.injOn_singleton firstByte x.2) hio hctx hino rfl (fun b hb => by
      rw [lt_blocks_iff] at hb
      omega) (by decide) (fun k => Nat.zero_le _) haddr (by decide : ([1] : List UInt8) ≠ [])
    le_rfl le_rfl (by decide) Key.zero hwrite (by rw [hx]; simp)
  have htouched : touched 0 (0 + ([1] : List UInt8).length) = [0] := by decide
  refine ⟨c', hwrite, data, by rw [hdata, htouched]; rfl, hiff.2 (Or.inr fun j _ _ => ?_) 0 ?_⟩
  · exact getD_zeroBlock j
  · rw [htouched]
    exact List.mem_singleton_self 0

/-- A block of ones and one byte more, written to an empty file : the second chunk goes on with the
ones of the first. -/
theorem write_keeps_counterexample :
    (table true).RefCounted Table.view ∧
    ∃ (c' : Client (Table × List StoreCall) ℕ) (d d' : List UInt8),
      emptyFile.fuseWrite firstByte (table true).recorded {} 0 (List.replicate 4096 1 ++ [2]) 0
        Key.zero = some (c', some 4097) ∧
      puts c'.store.2 = [(firstByte d, d), (firstByte d', d')] ∧ Set.InjOn firstByte {d, d'} ∧
      ¬(emptyFile.writeJob Table.view firstByte 0 (List.replicate 4096 1 ++ [2]) 0
        Key.zero).KeepsRest 0 1 d' := by
  have hrun : (emptyFile.fuseWrite firstByte (table true).recorded {} 0
      (List.replicate 4096 1 ++ [2]) 0 Key.zero).map
        (fun r => ((puts r.1.store.2).map fun x => (x.1, x.2.take 2), r.2)) =
      some ([(firstByte [1], [1, 1]), (firstByte [2], [2, 1])], some 4097) := by
    decide +kernel
  obtain ⟨⟨c', ret⟩, hwrite, hres⟩ := Option.map_eq_some_iff.1 hrun
  obtain ⟨hputs, rfl⟩ := Prod.mk.inj hres
  obtain ⟨⟨k, d⟩, l, hl, hd, hrest⟩ := List.map_eq_cons_iff.1 hputs
  obtain ⟨⟨k', d'⟩, l', rfl, hd', hnil⟩ := List.map_eq_cons_iff.1 hrest
  obtain rfl := List.map_eq_nil_iff.1 hnil
  obtain ⟨rfl, hfront⟩ := Prod.mk.inj hd
  obtain ⟨rfl, hfront'⟩ := Prod.mk.inj hd'
  rw [← List.take_append_drop 2 d, ← List.take_append_drop 2 d', hfront, hfront'] at hl
  refine ⟨table_refCounted true, c', [1, 1] ++ d.drop 2, [2, 1] ++ d'.drop 2, hwrite, hl, ?_,
    fun hkeep => ?_⟩
  · have hdiff : firstByte [1] ≠ firstByte [2] := by decide
    exact Set.injOn_pair.2 fun heq => (hdiff heq).elim
  · have hnone : ¬HasEntry ([] : ByteFile) 1 := by
      rw [hasEntry_iff]
      decide
    have hout : ¬(emptyFile.writeJob Table.view firstByte 0 (List.replicate 4096 1 ++ [2]) 0
        Key.zero).Inside 1 1 := by
      decide +kernel
    have hzero := (hkeep 1 (by decide) hout).2 hnone
    exact absurd (Option.some.inj hzero) (by decide)

end Client

end Agilefs
