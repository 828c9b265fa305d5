import Agilefs.RefCount

/-!
# Ingestion

A list of `put_new_chunk` calls in which writes to the chunk files may be short or fail and
writes to the database may fail. A failed call loses the slot it took, but no invariant
depends on that slot : `ingest_exact` says that the store stays well formed, that the count
of each key grows by exactly the number of its calls that returned `0`, and that every key
present reads back as its block. So the order of the calls does not matter : two lists with
the same successes leave the same counts and the same blocks, wherever these are stored.
-/

namespace Agilefs

open Function

/-- One `put_new_chunk` call. -/
structure PutCall (K : Type*) where
  key : K
  block : Block
  o : Outcome

variable {K P : Type*} [DecidableEq K]

namespace ChunkFileInfo

/-- The sizes are multiples of `FSP_SIZE` of at most 4 GB. -/
def Sized (cfi : ChunkFileInfo) : Prop :=
  ∀ i < cfi.files, cfi.curSize i % 4096 = 0 ∧ cfi.curSize i ≤ 2 ^ 32

/-- A file found by the search can take one more chunk. -/
theorem Sized.takeSlot {ι : Type*} {loc : ι → Option Location} {cfi cfi' : ChunkFileInfo}
    {i : ℕ} {off : ℤ} (h : cfi.Sized) (hs : cfi.Sound loc) (hi : i < cfi.files)
    (hcap : cfi.capcity i < 0xffffffff) (ht : cfi.takeSlot i = some (cfi', off)) :
    cfi'.Sized := by
  rcases takeSlot_cases (hs.lists i hi) (hs.freeOffsets_nonneg hi) with ⟨hnil, ht'⟩ |
    ⟨fcl, o, os, -, -, -, ht'⟩
  · obtain rfl : cfi.grow i = cfi' := by
      rw [ht, Option.some.injEq, Prod.mk.injEq] at ht'
      exact ht'.1.symm
    have hcur : (cfi.fcls i).current = -1 :=
      (FreeChunkList.stack_eq_nil_iff (hs.lists i hi)).1 (by simpa [freeOffsets] using hnil)
    simp only [capcity, hcur, if_true] at hcap
    intro j hj
    obtain ⟨hmod, hle⟩ := h j hj
    rw [grow_curSize]
    split_ifs with hji
    · subst hji
      omega
    · exact ⟨hmod, hle⟩
  · obtain rfl : cfi.setFcl i fcl = cfi' := by
      rw [ht, Option.some.injEq, Prod.mk.injEq] at ht'
      exact ht'.1.symm
    exact h

end ChunkFileInfo

namespace Store

/-- Run the calls in order; the return value of each is listed with its key. -/
def ingest (whd : WriteHashDb K) : List (PutCall K) → Store K P →
    Option (Store K P × List (K × ℤ))
  | [], s => some (s, [])
  | c :: cs, s =>
    (s.putNewChunk whd c.o c.key c.block.val fspSize).bind fun r =>
      (ingest whd cs r.1).map fun q => (q.1, (c.key, r.2) :: q.2)

/-- One call, without its return value. -/
def putStep (whd : WriteHashDb K) (s : Store K P) (c : PutCall K) : Option (Store K P) :=
  (s.putNewChunk whd c.o c.key c.block.val fspSize).map Prod.fst

/-- Equal keys carry equal blocks, a file is found for a new key, and no count overflows. The
writes of the call may fail. -/
structure Ingestible (content : K → Block) (s : Store K P) (c : PutCall K) : Prop where
  dbGet : c.o.dbGet = 0
  block : c.block = content c.key
  room : s.db c.key = none → s.cfi.getProperChunkFile ≠ -1
  count : s.CountFits c.key

/-- What calls with the return values `rs` do to a store. -/
structure Ingested (content : K → Block) (s s' : Store K P) (rs : List (K × ℤ)) : Prop where
  isSome : ∀ k, (s'.db k).isSome ↔ (s.db k).isSome ∨ (k, 0) ∈ rs
  refCount : ∀ k, s'.refCount k = s.refCount k + rs.count (k, 0)
  holds : s'.Holds content
  wellFormed : s'.WellFormed
  sized : s'.cfi.Sized

variable {whd : WriteHashDb K} {content : K → Block}

/-- One call. -/
theorem putNewChunk_ingested (whd : WriteHashDb K) {s : Store K P} (hwf : s.WellFormed)
    (hsz : s.cfi.Sized)
    (hh : s.Holds content) {c : PutCall K} (hA : Ingestible content s c) :
    ∃ s' ret, s.putNewChunk whd c.o c.key c.block.val fspSize = some (s', ret) ∧
      s'.WellFormed ∧ s'.cfi.Sized ∧ s'.Holds content ∧ Counted s s' c.key ret := by
  obtain ⟨s', ret, hput, hwf', hh', -, halloc, -, hcount⟩ :=
    putNewChunk_spec whd hwf hh hA.dbGet hA.room fun hk _ => by
      obtain ⟨i, hi, hpi, -⟩ := ChunkFileInfo.exists_file_of_ne (hA.room hk)
      rw [hpi, Int.toNat_natCast]
      exact (hsz i hi).1
  refine ⟨s', ret, by rw [hA.block]; exact hput, hwf', ?_, hh', hcount hA.count⟩
  rcases halloc with hcfi | ⟨i, hi, -, hcap, off, ht⟩
  · rw [hcfi]
    exact hsz
  · exact hsz.takeSlot hwf.sound hi hcap ht

/-- A list of calls, by induction on it. -/
theorem ingest_ingested : ∀ {calls : List (PutCall K)} {s : Store K P}, s.WellFormed →
    s.cfi.Sized → s.Holds content → Runs.Each (putStep whd) (Ingestible content) s calls →
    ∃ s' rs, ingest whd calls s = some (s', rs) ∧ Ingested content s s' rs
  | [], s, hwf, hsz, hh, _ => ⟨s, [], rfl, by simp, by simp, hh, hwf, hsz⟩
  | c :: cs, s, hwf, hsz, hh, ⟨hA, hrest⟩ => by
    obtain ⟨s₁, ret, hput, hwf₁, hsz₁, hh₁, hcount⟩ :=
      putNewChunk_ingested whd hwf hsz hh hA
    obtain ⟨s', rs, hrun, hres⟩ :=
      ingest_ingested hwf₁ hsz₁ hh₁ (hrest s₁ (by simp [putStep, hput]))
    refine ⟨s', (c.key, ret) :: rs, by simp [ingest, hput, hrun], ?_, ?_, hres.holds,
      hres.wellFormed, hres.sized⟩
    · intro k
      rw [hres.isSome, hcount.isSome, List.mem_cons, Prod.mk.injEq, or_assoc,
        eq_comm (a := (0 : ℤ))]
    · intro k
      rw [hres.refCount, hcount.refCount, List.count_cons]
      have hbeq : ((c.key, ret) == (k, 0)) = decide (k = c.key ∧ ret = 0) := by
        simp [beq_eq_decide, Prod.mk.injEq, eq_comm (a := k)]
      rw [hbeq]
      by_cases hk : k = c.key ∧ ret = 0
      · simp [hk]
        omega
      · simp [hk]

/-- Ingestion is exact, and the order of the calls does not matter : from a well-formed store,
each count grows by the number of the calls with that key that returned `0`, every key
present reads back as its block, and calls with the same successes in any other order, on
any other outcomes, leave the same keys, counts and blocks. -/
theorem ingest_exact (whd : WriteHashDb K) (content : K → Block) {s : Store K P}
    (hwf : s.WellFormed) (hsz : s.cfi.Sized) (hh : s.Holds content) {calls : List (PutCall K)}
    (hA : Runs.Each (putStep whd) (Ingestible content) s calls) :
    ∃ s' rs, ingest whd calls s = some (s', rs) ∧ Ingested content s s' rs ∧
      ∀ calls₂, Runs.Each (putStep whd) (Ingestible content) s calls₂ →
        ∀ s₂ rs₂, ingest whd calls₂ s = some (s₂, rs₂) →
          (∀ k, rs₂.count (k, 0) = rs.count (k, 0)) → ∀ k,
            ((s₂.db k).isSome ↔ (s'.db k).isSome) ∧ s₂.refCount k = s'.refCount k ∧
            s₂.blockRead {} k fspSize 0 = s'.blockRead {} k fspSize 0 := by
  obtain ⟨s', rs, hrun, hres⟩ := ingest_ingested hwf hsz hh hA
  refine ⟨s', rs, hrun, hres, fun calls₂ hA₂ s₂ rs₂ hrun₂ hcount k => ?_⟩
  obtain ⟨s₃, rs₃, hrun₃, hres₂⟩ := ingest_ingested hwf hsz hh hA₂
  obtain ⟨rfl, rfl⟩ : s₂ = s₃ ∧ rs₂ = rs₃ := by simpa [hrun₂] using hrun₃
  have hsome : (s₂.db k).isSome ↔ (s'.db k).isSome := by
    rw [hres₂.isSome, hres.isSome, ← List.count_pos_iff, ← List.count_pos_iff, hcount k]
  refine ⟨hsome, by rw [hres₂.refCount, hres.refCount, hcount k], ?_⟩
  by_cases hk : (s'.db k).isSome
  · rw [hres.holds k hk, hres₂.holds k (hsome.2 hk)]
  · have hk₂ : s₂.db k = none := by simpa [hk] using hsome
    have hk' : s'.db k = none := by simpa using hk
    simp [blockRead, dbGet_none hk₂, dbGet_none hk', dbNotFound]

/-- Two puts of one key, the second of which fails to update the database. -/
theorem ingest_exact_put_put :
    ∃ s' rs, ingest (.insert ℕ) [⟨7, fillBlock 1, {}⟩, ⟨7, fillBlock 1, { dbPut := 1 }⟩]
        (empty 1 : Store ℕ ℕ) = some (s', rs) ∧
      Ingested (fun _ => fillBlock 1) (empty 1) s' rs ∧
      ∀ calls₂, Runs.Each (putStep (.insert ℕ)) (Ingestible fun _ => fillBlock 1)
        (empty 1 : Store ℕ ℕ) calls₂ →
        ∀ s₂ rs₂, ingest (.insert ℕ) calls₂ (empty 1 : Store ℕ ℕ) = some (s₂, rs₂) →
          (∀ k, rs₂.count (k, 0) = rs.count (k, 0)) → ∀ k,
            ((s₂.db k).isSome ↔ (s'.db k).isSome) ∧ s₂.refCount k = s'.refCount k ∧
            s₂.blockRead {} k fspSize 0 = s'.blockRead {} k fspSize 0 := by
  have hput : (putStep (.insert ℕ) (empty 1 : Store ℕ ℕ) ⟨7, fillBlock 1, {}⟩).map
      (fun s => s.db 7) = some (some ⟨0, 1, 0⟩) := by
    decide +kernel
  have hsz : (empty 1 : Store ℕ ℕ).cfi.Sized := by simp [ChunkFileInfo.Sized, empty]
  suffices hA : Runs.Each (putStep (.insert ℕ)) (Ingestible fun _ => fillBlock 1)
      (empty 1 : Store ℕ ℕ) [⟨7, fillBlock 1, {}⟩, ⟨7, fillBlock 1, { dbPut := 1 }⟩] from
    ingest_exact (.insert ℕ) _ (wellFormed_empty 1) hsz (holds_empty _ 1) hA
  refine ⟨?_, fun s hs => ⟨?_, ?_⟩⟩
  · exact ⟨rfl, rfl, fun _ => by decide, by simp [CountFits, empty]⟩
  · have hdb : s.db 7 = some ⟨0, 1, 0⟩ := by simpa [hs] using hput
    refine ⟨rfl, rfl, by simp [hdb], fun bd hbd => ?_⟩
    obtain rfl : _ = bd := by simpa [hdb] using hbd
    decide
  · exact fun _ _ => trivial

end Store

end Agilefs
