import Agilefs.NoAliasing

/-!
# What one operation of the store can do

The cases of `put_new_chunk` and `del_chunk` in any store, whatever their calls do : nothing
is assumed of the lists, the records or the files. `putNewChunk_cases` and `delChunk_cases`
list them with their conditions.
-/

namespace Agilefs

open CInt Posix Function

variable {K P : Type*}

/-- `db_get` finds the key. -/
def Finds (rc : ℤ) (db : Db K) (key : K) : Prop := rc = 0 ∧ (db key).isSome

theorem dbGet_eq_zero_iff {rc : ℤ} {db : Db K} {key : K} :
    (dbGet rc db key).1 = 0 ↔ Finds rc db key := by
  unfold dbGet Finds
  split_ifs with h
  · simp [h]
  · cases db key <;> simp_all [dbNotFound]

/-- The record of a key that is not found is zero. -/
theorem dbGet_of_not_finds {rc : ℤ} {db : Db K} {key : K} (h : ¬Finds rc db key) :
    (dbGet rc db key).1 ≠ 0 ∧ (dbGet rc db key).2 = .zero := by
  refine ⟨fun h' => h (dbGet_eq_zero_iff.1 h'), ?_⟩
  unfold dbGet
  split_ifs with hrc
  · rfl
  · cases hk : db key with
    | none => rfl
    | some bd => exact (h ⟨by simpa using hrc, by simp [hk]⟩).elim

theorem slotOffset_eq (e : UInt32) : slotOffset e = int32 e.toNat <<< (12 : ℕ) := by
  rw [Int.shiftLeft_eq]
  rfl

theorem ChunkFileInfo.takeSlot_some {cfi cfi' : ChunkFileInfo} {i : ℕ} {off : ℤ}
    (h : cfi.takeSlot i = some (cfi', off)) :
    ∃ fcl r, (cfi.fcls i).getFirstFreeChunk = some (fcl, r) ∧
      ((r = -1 ∧ cfi' = (cfi.setFcl i fcl).grow i ∧ off = cfi.curSize i) ∨
        (r ≠ -1 ∧ cfi' = cfi.setFcl i fcl ∧ off = r <<< (12 : ℕ))) := by
  obtain ⟨⟨fcl, r⟩, hget, hres⟩ := Option.map_eq_some_iff.1 h
  refine ⟨fcl, r, hget, ?_⟩
  simp only at hres
  split_ifs at hres with hr
  · simp only [Prod.mk.injEq] at hres
    exact Or.inl ⟨hr, hres.1.symm, hres.2.symm⟩
  · simp only [Prod.mk.injEq] at hres
    exact Or.inr ⟨hr, hres.1.symm, hres.2.symm⟩

theorem ChunkFileInfo.takeSlot_total {cfi cfi' : ChunkFileInfo} {i : ℕ} {off : ℤ}
    (h : cfi.takeSlot i = some (cfi', off)) : cfi'.total = cfi.total ∧ cfi'.fds = cfi.fds := by
  obtain ⟨fcl, r, -, ⟨-, rfl, -⟩ | ⟨-, rfl, -⟩⟩ := takeSlot_some h
  · exact ⟨rfl, rfl⟩
  · exact ⟨rfl, rfl⟩

namespace Store

variable [DecidableEq K] {whd : WriteHashDb K} {o : Outcome} {s s' : Store K P} {key : K}
  {buf : List UInt8} {size : ℕ} {ret : ℤ}

/-- The `pwrite` of a `block_write` to the offset `off` of file `i`. -/
def writeSlot (s : Store K P) (o : Outcome) (buf : List UInt8) (size i : ℕ) (off : ℤ) :
    Os P × ℤ :=
  s.os.pwrite o.pwrite (s.cfi.fds i) (buf.take size) off

/-- A put whose key is found counts a reference, or fails and changes nothing. -/
theorem putNewChunk_found (whd : WriteHashDb K) (h : Finds o.dbGet s.db key)
    (hput : s.putNewChunk whd o key buf size = some (s', ret)) :
    ∃ bd, s.db key = some bd ∧
      ((o.dbPut = 0 ∧ ret = 0 ∧ s' = { s with
          db := update s.db key (some { bd with refCount := int32 (bd.refCount + 1) }) }) ∨
        (o.dbPut ≠ 0 ∧ ret = -1 ∧ s' = s)) := by
  obtain ⟨bd, hbd⟩ := Option.isSome_iff_exists.1 h.2
  rw [putNewChunk_present whd h.1 hbd] at hput
  refine ⟨bd, hbd, ?_⟩
  split_ifs at hput with hdb
  · simp only [Option.some.injEq, Prod.mk.injEq] at hput
    exact Or.inl ⟨hdb, hput.2.symm, hput.1.symm⟩
  · simp only [Option.some.injEq, Prod.mk.injEq] at hput
    exact Or.inr ⟨hdb, hput.2.symm, hput.1.symm⟩

/-- A put whose key is not found takes a slot of the file the search finds. It records the slot
if the write is complete and `write_hash_db` succeeds, and fails otherwise. -/
theorem putNewChunk_not_found (whd : WriteHashDb K) (h : ¬Finds o.dbGet s.db key)
    (hput : s.putNewChunk whd o key buf size = some (s', ret)) :
    ∃ i < s.cfi.files, s.cfi.getProperChunkFile = i ∧ s.cfi.capcity i < 0xffffffff ∧
      ∃ off, s.cfi.takeSlot i = some (s'.cfi, off) ∧ s'.os = (s.writeSlot o buf size i off).1 ∧
        (((s.writeSlot o buf size i off).2 = 4096 ∧ o.writeHashDb = 0 ∧ ret = 0 ∧
            s'.db = update s.db key (some ⟨i, 1, off⟩)) ∨
          (¬((s.writeSlot o buf size i off).2 = 4096 ∧ o.writeHashDb = 0) ∧ ret = -1 ∧
            s'.db = s.db)) := by
  have hne := (dbGet_of_not_finds h).1
  simp only [putNewChunk, if_pos hne] at hput
  obtain ⟨⟨s₁, ret₁⟩, hbw, hres⟩ := Option.map_eq_some_iff.1 hput
  simp only [Prod.mk.injEq] at hres
  obtain ⟨rfl, hret⟩ := hres
  have hg : s.cfi.getProperChunkFile ≠ -1 := by
    intro hg
    simp [blockWrite, hg] at hbw
  obtain ⟨i, hi, hpi, hcap⟩ := ChunkFileInfo.exists_file_of_ne hg
  simp only [blockWrite, hpi, if_neg (by omega : ¬(i : ℤ) < 0), Int.toNat_natCast] at hbw
  obtain ⟨⟨cfi, off⟩, ht, hw⟩ := Option.map_eq_some_iff.1 hbw
  have hfds := (ChunkFileInfo.takeSlot_total ht).2
  refine ⟨i, hi, hpi, hcap, off, ?_⟩
  simp only [hfds, whd.spec, fspSize] at hw hret
  unfold writeSlot
  by_cases hp : (s.os.pwrite o.pwrite (s.cfi.fds i) (buf.take size) off).2 = 4096
  · by_cases hx : o.writeHashDb = 0
    · simp [hp, hx] at hw
      obtain ⟨rfl, rfl⟩ := hw
      exact ⟨ht, rfl, Or.inl ⟨hp, hx, by simpa using hret.symm, rfl⟩⟩
    · simp [hp, hx] at hw
      obtain ⟨rfl, rfl⟩ := hw
      exact ⟨ht, rfl, Or.inr ⟨fun h => hx h.2, by simpa using hret.symm, rfl⟩⟩
  · simp [hp] at hw
    obtain ⟨rfl, rfl⟩ := hw
    exact ⟨ht, rfl, Or.inr ⟨fun h => hp h.1, by simpa [hp] using hret.symm, rfl⟩⟩

/-- A delete of a key that is not found pushes slot `0` of file `0`, and removes the record there
is. -/
theorem delChunk_not_found (h : ¬Finds o.dbGet s.db key)
    (hdel : s.delChunk o key = some (s', ret)) :
    ∃ fcl r, (s.cfi.fcls 0).addFreeChunk 0 o.malloc = some (fcl, r) ∧
      s' = ⟨s.cfi.setFcl 0 fcl, (dbDel o.dbDel s.db key).1, s.os⟩ := by
  obtain ⟨hne, hbd⟩ := dbGet_of_not_finds h
  simp only [delChunk, if_pos hne, hbd] at hdel
  have hzero : int32 (uint32 (BlockData.zero.offset >>> (12 : ℕ))) = 0 := rfl
  rw [if_neg (by decide), hzero] at hdel
  obtain ⟨⟨fcl, r⟩, hadd, hres⟩ := Option.map_eq_some_iff.1 hdel
  simp only [Prod.mk.injEq] at hres
  exact ⟨fcl, r, hadd, hres.1.symm⟩

/-- A delete of a key that is found changes nothing. -/
theorem delChunk_found (h : Finds o.dbGet s.db key)
    (hdel : s.delChunk o key = some (s', ret)) : s' = s := by
  obtain ⟨bd, hbd⟩ := Option.isSome_iff_exists.1 h.2
  rw [delChunk_present h.1 hbd, Option.some.injEq, Prod.mk.injEq] at hdel
  exact hdel.1.symm

theorem dbDel_eq (rc : ℤ) (db : Db K) (key : K) :
    (dbDel rc db key).1 = db ∨ (rc = 0 ∧ (dbDel rc db key).1 = update db key none) := by
  unfold dbDel
  split_ifs with hrc hk
  · exact Or.inl rfl
  · exact Or.inr ⟨by simpa using hrc, rfl⟩
  · exact Or.inl rfl

end Store

end Agilefs
