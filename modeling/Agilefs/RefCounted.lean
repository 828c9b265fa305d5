import Agilefs.StoreCalls
import Mathlib.Data.Set.Function

/-!
# Reference-counted stores

What a client relies on in a store that counts references (`BlockStore.RefCounted`) : a key with
a reference has a chunk, a put adds a reference and keeps a chunk that is there, a delete takes a
reference away and the chunk with the last one. A put that fails changes nothing.

`Addressed` : each chunk is stored under its hash. Puts and deletes keep this as long as the hash
has no collisions on the blocks involved (`Addressed.put`).

`table` is such a store.
-/

namespace Agilefs

open Function

variable {B : Type*}

/-- The chunks of a store and the number of references to each key. -/
structure StoreView (B : Type*) where
  chunk : B → Key → Option (List UInt8)
  refs : B → Key → ℕ

/-- A block of zeros. -/
def zeroBlock : List UInt8 := List.replicate 4096 0

@[simp] theorem length_zeroBlock : zeroBlock.length = 4096 := List.length_replicate

theorem getD_zeroBlock (j : ℕ) : zeroBlock.getD j 0 = 0 := by
  rw [zeroBlock, List.getD_eq_getElem?_getD, List.getElem?_replicate]
  split_ifs <;> rfl

/-- The laws of a reference-counted store. -/
structure BlockStore.RefCounted (st : BlockStore B) (v : StoreView B) : Prop where
  present : ∀ s k, (v.chunk s k).isSome ↔ 0 < v.refs s k
  length : ∀ s k d, v.chunk s k = some d → d.length = 4096
  read : ∀ s k, st.blockRead s k 4096 0 = v.chunk s k
  put : ∀ s k d, d.length = 4096 → ∃ s' ret, st.putNewChunk s k d = some (s', ret) ∧
    (ret = 0 → v.refs s' = update (v.refs s) k (v.refs s k + 1) ∧
      v.chunk s' = update (v.chunk s) k (some ((v.chunk s k).getD d))) ∧
    (ret ≠ 0 → v.refs s' = v.refs s ∧ v.chunk s' = v.chunk s)
  del : ∀ s k, ∃ s' ret, st.delChunk s k = some (s', ret) ∧
    v.refs s' = update (v.refs s) k (v.refs s k - 1) ∧
    ∀ k', 0 < v.refs s' k' → v.chunk s' k' = v.chunk s k'

section Laws

variable {st : BlockStore B} {v : StoreView B} (hst : st.RefCounted v)

include hst

theorem BlockStore.RefCounted.chunk_eq_none {s : B} {k : Key} :
    v.chunk s k = none ↔ v.refs s k = 0 := by
  rw [← Option.not_isSome_iff_eq_none, hst.present]
  omega

theorem BlockStore.RefCounted.put_spec {s s' : B} {k : Key} {d : List UInt8} {ret : ℤ}
    (hd : d.length = 4096) (h : st.putNewChunk s k d = some (s', ret)) :
    (ret = 0 → v.refs s' = update (v.refs s) k (v.refs s k + 1) ∧
      v.chunk s' = update (v.chunk s) k (some ((v.chunk s k).getD d))) ∧
    (ret ≠ 0 → v.refs s' = v.refs s ∧ v.chunk s' = v.chunk s) := by
  obtain ⟨s₁, ret₁, h₁, hspec⟩ := hst.put s k d hd
  rw [h₁, Option.some.injEq, Prod.mk.injEq] at h
  obtain ⟨rfl, rfl⟩ := h
  exact hspec

theorem BlockStore.RefCounted.del_spec {s s' : B} {k : Key} {ret : ℤ}
    (h : st.delChunk s k = some (s', ret)) (k' : Key) :
    v.refs s' k' = v.refs s k' - (if k = k' then 1 else 0) ∧
    v.chunk s' k' = if v.refs s' k' = 0 then none else v.chunk s k' := by
  obtain ⟨s₁, ret₁, h₁, hrefs, hchunk⟩ := hst.del s k
  rw [h₁, Option.some.injEq, Prod.mk.injEq] at h
  obtain ⟨rfl, rfl⟩ := h
  constructor
  · rw [hrefs, update_apply]
    split_ifs with h₁ h₂ h₂
    · rw [h₁]
    · exact absurd h₁.symm h₂
    · exact absurd h₂.symm h₁
    · rfl
  · split_ifs with h₀
    · exact hst.chunk_eq_none.2 h₀
    · exact hchunk k' (Nat.pos_of_ne_zero h₀)

end Laws

/-! ## Content addressing -/

/-- Each chunk is one of the blocks `S`, under its hash. -/
def Addressed (doHash : List UInt8 → Key) (S : Set (List UInt8))
    (chunk : Key → Option (List UInt8)) : Prop :=
  ∀ k d, chunk k = some d → d ∈ S ∧ doHash d = k

section Addressed

variable {doHash : List UInt8 → Key} {S : Set (List UInt8)}
  {chunk chunk' : Key → Option (List UInt8)}

/-- Fewer chunks. -/
theorem Addressed.mono (h : Addressed doHash S chunk)
    (hsub : ∀ k d, chunk' k = some d → chunk k = some d) : Addressed doHash S chunk' :=
  fun k d hd => h k d (hsub k d hd)

/-- The chunk under the hash of a block is this block. -/
theorem Addressed.eq_of_chunk (h : Addressed doHash S chunk) (hinj : S.InjOn doHash)
    {d d' : List UInt8} (hd : d ∈ S) (hd' : chunk (doHash d) = some d') : d' = d := by
  obtain ⟨hmem, hhash⟩ := h _ _ hd'
  exact hinj hmem hd hhash

/-- Without collisions a put block is under its hash, whether a chunk was there or not. -/
theorem Addressed.put (h : Addressed doHash S chunk) (hinj : S.InjOn doHash) {d : List UInt8}
    (hd : d ∈ S) (hput : chunk' = update chunk (doHash d) (some ((chunk (doHash d)).getD d))) :
    chunk' = update chunk (doHash d) (some d) ∧ Addressed doHash S chunk' := by
  have hsame : (chunk (doHash d)).getD d = d := by
    cases hc : chunk (doHash d) with
    | none => rfl
    | some d' => exact h.eq_of_chunk hinj hd hc
  rw [hsame] at hput
  refine ⟨hput, fun k d' hd' => ?_⟩
  rw [hput, update_apply] at hd'
  split_ifs at hd' with hk
  · obtain rfl := Option.some.inj hd'
    exact ⟨hd, hk.symm⟩
  · exact h k d' hd'

end Addressed

/-! ## A table of chunks -/

/-- Blocks of 4096 bytes. -/
abbrev ChunkBytes := {d : List UInt8 // d.length = 4096}

/-- Chunks by key, each with the number of references beyond the first. -/
abbrev Table := Key → Option (ChunkBytes × ℕ)

/-- What a table holds. -/
def Table.view : StoreView Table where
  chunk t k := (t k).map fun e => e.1.val
  refs t k := ((t k).map fun e => e.2 + 1).getD 0

/-- A table as a store. It takes new keys only if there is `room`. -/
def table (room : Bool) : BlockStore Table where
  blockRead t k _ _ := (t k).map fun e => e.1.val
  putNewChunk t k d :=
    match t k with
    | some (e, n) => some (update t k (some (e, n + 1)), 0)
    | none =>
      if h : d.length = 4096 ∧ room = true then some (update t k (some (⟨d, h.1⟩, 0)), 0)
      else some (t, -1)
  delChunk t k :=
    match t k with
    | some (e, n + 1) => some (update t k (some (e, n)), 0)
    | _ => some (update t k none, 0)

theorem Table.chunk_update (t : Table) (k : Key) (e : Option (ChunkBytes × ℕ)) :
    Table.view.chunk (update t k e) = update (Table.view.chunk t) k (e.map fun e => e.1.val) := by
  funext k'
  simp only [Table.view, update_apply]
  split_ifs <;> rfl

theorem Table.refs_update (t : Table) (k : Key) (e : Option (ChunkBytes × ℕ)) :
    Table.view.refs (update t k e) =
      update (Table.view.refs t) k ((e.map fun e => e.2 + 1).getD 0) := by
  funext k'
  simp only [Table.view, update_apply]
  split_ifs <;> rfl

theorem table_refCounted (room : Bool) : (table room).RefCounted Table.view := by
  refine ⟨fun t k => ?_, fun t k d hd => ?_, fun t k => rfl, fun t k d hd => ?_, fun t k => ?_⟩
  · cases h : t k <;> simp [Table.view, h]
  · obtain ⟨e, -, rfl⟩ := Option.map_eq_some_iff.1 hd
    exact e.1.property
  · cases h : t k with
    | some e =>
      refine ⟨update t k (some (e.1, e.2 + 1)), 0, by simp only [table, h], fun _ => ⟨?_, ?_⟩,
        fun h => absurd rfl h⟩
      · rw [Table.refs_update]
        simp [Table.view, h]
      · rw [Table.chunk_update]
        simp [Table.view, h]
    | none =>
      cases room with
      | true =>
        refine ⟨update t k (some (⟨d, hd⟩, 0)), 0, by simp [table, h, hd], fun _ => ⟨?_, ?_⟩,
          fun h => absurd rfl h⟩
        · rw [Table.refs_update]
          simp [Table.view, h]
        · rw [Table.chunk_update]
          simp [Table.view, h]
      | false =>
        exact ⟨t, -1, by simp [table, h], fun h => absurd h (by decide), fun _ => ⟨rfl, rfl⟩⟩
  · -- what is left of the entry of `k`
    have hleft : ∃ e, (table room).delChunk t k = some (update t k e, 0) ∧
        (e.map fun e => e.2 + 1).getD 0 = Table.view.refs t k - 1 ∧
        (e.isSome → (e.map fun e => e.1.val) = Table.view.chunk t k) := by
      rcases h : t k with _ | ⟨e, _ | m⟩
      · exact ⟨none, by simp only [table, h], by simp [Table.view, h], by simp⟩
      · exact ⟨none, by simp only [table, h], by simp [Table.view, h], by simp⟩
      · exact ⟨some (e, m), by simp only [table, h], by simp [Table.view, h],
          by simp [Table.view, h]⟩
    obtain ⟨e, hdel, hrefs, hchunk⟩ := hleft
    refine ⟨update t k e, 0, hdel, by rw [Table.refs_update, hrefs], fun k' hk' => ?_⟩
    rw [Table.refs_update, update_apply] at hk'
    rw [Table.chunk_update, update_apply]
    split_ifs at hk' ⊢ with hk
    · rw [hk]
      refine hchunk ?_
      cases e with
      | none => simp at hk'
      | some e => rfl
    · rfl

end Agilefs
