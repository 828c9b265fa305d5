import Agilefs.StoreFiles
import Mathlib.Algebra.BigOperators.Group.Finset.Piecewise
import Mathlib.Data.Set.Card

/-!
# The space the blocks take

The chunk files hold one block for each key that is present, however often it was put, and the slots
on the free lists (`Packed`). No operation frees a slot : `del_chunk` of a key that is present does
nothing.

`durable_packed` : this is so after calls on a store with any number of restarts between them.
`mounts_packed` : the files of a client take one block for each distinct block written.
-/

namespace Agilefs

open Function Posix ByteFile

/-- A sum in which one term grows. -/
theorem sum_range_add {n i : ℕ} (hi : i < n) {f g : ℕ → ℕ} {d : ℕ} (hself : g i = f i + d)
    (hne : ∀ j, j ≠ i → g j = f j) :
    ∑ j ∈ Finset.range n, g j = (∑ j ∈ Finset.range n, f j) + d := by
  calc ∑ j ∈ Finset.range n, g j
      = ∑ j ∈ Finset.range n, (f j + if j = i then d else 0) := by
        refine Finset.sum_congr rfl fun j _ => ?_
        split_ifs with hj
        · rw [hj, hself]
        · rw [hne j hj, add_zero]
    _ = _ := by
        rw [Finset.sum_add_distrib, Finset.sum_ite_eq', if_pos (Finset.mem_range.2 hi)]

namespace ChunkFileInfo

/-- Where the chunk files end, all together. -/
def ends (cfi : ChunkFileInfo) : ℕ := ∑ i ∈ Finset.range cfi.files, cfi.curSize i

/-- The slots on the free lists. -/
def freeSlots (cfi : ChunkFileInfo) : ℕ := ∑ i ∈ Finset.range cfi.files, (cfi.fcls i).stack.length

/-- A slot is one from a free list, or one more at the end of a file. -/
theorem Sound.ends_takeSlot {ι : Type*} {loc : ι → Option Location} {cfi cfi' : ChunkFileInfo}
    (h : cfi.Sound loc) {i : ℕ} (hi : i < cfi.files) {off : ℤ}
    (ht : cfi.takeSlot i = some (cfi', off)) :
    cfi'.ends + 4096 * cfi.freeSlots = cfi.ends + 4096 * (cfi'.freeSlots + 1) := by
  rcases takeSlot_cases (h.lists i hi) (h.freeOffsets_nonneg hi) with ⟨-, ht'⟩ |
    ⟨fcl, o, os, hcons, -, hst, ht'⟩
  · obtain rfl : cfi.grow i = cfi' := by
      rw [ht, Option.some.injEq, Prod.mk.injEq] at ht'
      exact ht'.1.symm
    have hends : (cfi.grow i).ends = cfi.ends + 4096 :=
      sum_range_add hi (by rw [grow_curSize, if_pos rfl])
        fun j hj => by rw [grow_curSize, if_neg hj]
    have hfree : (cfi.grow i).freeSlots = cfi.freeSlots := rfl
    omega
  · obtain rfl : cfi.setFcl i fcl = cfi' := by
      rw [ht, Option.some.injEq, Prod.mk.injEq] at ht'
      exact ht'.1.symm
    have hlen : (cfi.fcls i).stack.length = fcl.stack.length + 1 := by
      have := congrArg List.length hcons
      rw [← hst] at this
      simpa [freeOffsets] using this
    have hends : (cfi.setFcl i fcl).ends = cfi.ends := rfl
    have hfree : cfi.freeSlots = (cfi.setFcl i fcl).freeSlots + 1 :=
      sum_range_add hi (by rw [setFcl_fcls, if_pos rfl, hlen]) fun j hj => by
        rw [setFcl_fcls, if_neg hj]
    omega

end ChunkFileInfo

namespace Store

variable {K P : Type*}

/-- The bytes of the chunk files. -/
def size (s : Store K P) : ℕ :=
  ∑ i ∈ Finset.range s.cfi.files, (s.os.content (s.cfi.fds i)).length

/-- The keys that are present. -/
def keys (s : Store K P) : Set K := {k | (s.db k).isSome}

/-- The chunk files have one block for each key, and the free slots. -/
structure Packed (s : Store K P) : Prop where
  finite : s.keys.Finite
  size : s.size = 4096 * (s.keys.ncard + s.cfi.freeSlots)

variable [DecidableEq P] {content : K → Block} {doc : List (XmlEvent P)} {s s' : Store K P}

omit [DecidableEq P] in
/-- A store that runs knows the sizes of its files. -/
theorem Durable.size_eq (h : s.Durable content doc) : s.size = s.cfi.ends := by
  have hfiles : s.cfi.files = (files doc).length := by
    rw [ChunkFileInfo.files, h.running.total, Int.toNat_natCast]
  refine Finset.sum_congr rfl fun i hi => ?_
  have hlt : i < (files doc).length := hfiles ▸ Finset.mem_range.1 hi
  obtain ⟨n, hino, -, hsize⟩ := h.running.file i _ (List.getElem?_eq_getElem hlt)
  rw [Os.content, hino, hsize]
  rfl

omit [DecidableEq P] in
/-- One key more takes one slot. -/
theorem Packed.insert (h : s.Packed) (hdur : s.Durable content doc) (hdur' : s'.Durable content doc)
    {key : K} (hkey : s.db key = none) (hkeys : s'.keys = insert key s.keys) {i : ℕ}
    (hi : i < s.cfi.files) {off : ℤ} (ht : s.cfi.takeSlot i = some (s'.cfi, off)) : s'.Packed := by
  have hnot : key ∉ s.keys := by simp [keys, hkey]
  have hsize := h.size
  have htake := hdur.wellFormed.sound.ends_takeSlot hi ht
  refine ⟨hkeys ▸ h.finite.insert key, ?_⟩
  rw [hdur.size_eq] at hsize
  rw [hdur'.size_eq, hkeys, Set.ncard_insert_of_notMem hnot h.finite]
  omega

omit [DecidableEq P] in
/-- The files, the lists and the keys are as they were. -/
theorem Packed.congr (h : s.Packed) (hsize : s'.size = s.size) (hkeys : s'.keys = s.keys)
    (hfree : s'.cfi.freeSlots = s.cfi.freeSlots) : s'.Packed :=
  ⟨hkeys ▸ h.finite, by rw [hsize, hkeys, hfree, h.size]⟩

variable [DecidableEq K]

/-- A put that can write the record of a new chunk. -/
def Stores : DurableOp K → Prop
  | .put o _ _ => o.writeHashDb = 0
  | _ => True

/-- One operation. -/
theorem Packed.step (h : s.Packed) (hdur : s.Durable content doc) (hdoc : TotalFirst doc)
    (hnd : (paths doc).Nodup) (whd : WriteHashDb K) {op : DurableOp K} (hC : Regular content s op)
    (hstores : Stores op) {r : DurableRet} (hs : s.durableStep whd doc op = some (s', r)) :
    s'.Packed := by
  cases op with
  | put o key block =>
    obtain ⟨s₁, r₁, hput, -, hdur'⟩ := hdur.put whd hC
    obtain ⟨rfl, rfl⟩ := Prod.mk.inj (Option.some.inj (hput.symm.trans hs))
    obtain ⟨hget, hpw, rfl, hroom, -⟩ := hC
    obtain ⟨⟨s₂, ret⟩, hcall, heq⟩ := Option.map_eq_some_iff.1 hput
    obtain ⟨rfl, rfl⟩ := Prod.mk.inj heq
    cases hk : s.db key with
    | some bd =>
      rw [putNewChunk_present whd hget hk] at hcall
      split_ifs at hcall
      · obtain ⟨rfl, -⟩ := Prod.mk.inj (Option.some.inj hcall)
        refine h.congr rfl (Set.ext fun k => ?_) rfl
        by_cases hkk : k = key
        · simp [keys, hkk, hk]
        · simp [keys, hkk]
      · obtain ⟨rfl, -⟩ := Prod.mk.inj (Option.some.inj hcall)
        exact h
    | none =>
      obtain ⟨i, hi, hpi, -⟩ := ChunkFileInfo.exists_file_of_ne (hroom hk)
      obtain ⟨cfi', off, n, ht, -, -, hput'⟩ :=
        putNewChunk_full whd hdur.wellFormed hget hpw hk hi hpi (hdur.sized i hi).1 (content key)
      have hok : o.writeHashDb = 0 := hstores
      rw [hcall, if_pos hok, if_pos hok] at hput'
      obtain ⟨rfl, -⟩ := Prod.mk.inj (Option.some.inj hput')
      refine h.insert hdur hdur' hk (Set.ext fun k => ?_) hi ht
      by_cases hkk : k = key
      · simp [keys, hkk]
      · simp [keys, hkk]
  | del o key =>
    obtain ⟨hget, hpresent⟩ := hC
    obtain ⟨bd, hbd⟩ := Option.isSome_iff_exists.1 hpresent
    rw [durableStep, delChunk_present hget hbd, Option.map_some] at hs
    obtain ⟨rfl, -⟩ := Prod.mk.inj (Option.some.inj hs)
    exact h
  | read o key size offset =>
    obtain ⟨rfl, -⟩ := Prod.mk.inj (Option.some.inj hs)
    exact h
  | restart env base =>
    obtain ⟨cfi', os', hrestart, htotal, -, hall⟩ := restart_spec hdur.running hdoc hnd env base
    rw [durableStep, hrestart, Option.map_some] at hs
    obtain ⟨rfl, -⟩ := Prod.mk.inj (Option.some.inj hs)
    have hfiles : cfi'.files = s.cfi.files := by
      rw [ChunkFileInfo.files, ChunkFileInfo.files, htotal]
    refine h.congr ?_ rfl ?_
    · refine Finset.sum_congr (by simp only [hfiles]) fun i hi => ?_
      rw [(hall i (Finset.mem_range.1 hi)).2.1]
    · refine Finset.sum_congr (by simp only [hfiles]) fun i hi => ?_
      rw [(hall i (Finset.mem_range.1 hi)).2.2.2.2]

/-- Whatever the calls and the restarts between them, each key that is present takes one slot. -/
theorem durable_packed (whd : WriteHashDb K) (content : K → Block) {doc : List (XmlEvent P)}
    (hdoc : TotalFirst doc) (hnd : (paths doc).Nodup) {s : Store K P} (hdur : s.Durable content doc)
    (hpacked : s.Packed) {ops : List (DurableOp K)}
    (hC : Runs.Each (fun s op => (s.durableStep whd doc op).map Prod.fst)
      (fun s op => Regular content s op ∧ Stores op) s ops) :
    ∃ s' rs, Runs.trace (durableStep whd doc) s ops = some (s', rs) ∧
      Runs.trace (countsStep content) s.counts ops = some (s'.counts, rs) ∧
      s'.size = 4096 * ({k | (s'.counts k).isSome}.ncard + s'.cfi.freeSlots) := by
  have hstep : ∀ s op, s.Durable content doc ∧ s.Packed → Regular content s op ∧ Stores op →
      ∃ s' r, s.durableStep whd doc op = some (s', r) ∧
        countsStep content s.counts op = some (s'.counts, r) ∧
          s'.Durable content doc ∧ s'.Packed := by
    rintro s op ⟨hdur, hpacked⟩ ⟨hregular, hstores⟩
    obtain ⟨s', r, hs, hcounts, hdur'⟩ := hdur.step hdoc hnd whd hregular
    exact ⟨s', r, hs, hcounts, hdur', hpacked.step hdur hdoc hnd whd hregular hstores hs⟩
  obtain ⟨s', rs, htrace, hspec, -, hpacked'⟩ := Runs.trace_of_refines hstep ⟨hdur, hpacked⟩ hC
  have hkeys : {k | (s'.counts k).isSome} = s'.keys := Set.ext fun k => by simp [counts, keys]
  exact ⟨s', rs, htrace, hspec, by rw [hkeys, hpacked'.size]⟩

omit [DecidableEq K] [DecidableEq P] in
/-- No files, no keys. -/
theorem packed_oneEmptyFile : (oneEmptyFile K).Packed := by
  have hkeys : (oneEmptyFile K).keys = ∅ := Set.ext fun k => by simp [keys, oneEmptyFile]
  refine ⟨hkeys ▸ Set.finite_empty, ?_⟩
  rw [hkeys, Set.ncard_empty]
  rfl

/-- One block, put twice, takes one slot. -/
theorem durable_packed_one :
    ∃ s' rs, Runs.trace (durableStep (.insert ℕ) oneFileDoc) (oneEmptyFile ℕ)
        [.put {} 7 (fillBlock 1), .put {} 7 (fillBlock 1),
          .restart ⟨fun _ _ _ => 0, fun _ => 0⟩ (oneEmptyFile ℕ).cfi] = some (s', rs) ∧
      Runs.trace (countsStep fun _ => fillBlock 1) (oneEmptyFile ℕ).counts
        [.put {} 7 (fillBlock 1), .put {} 7 (fillBlock 1),
          .restart ⟨fun _ _ _ => 0, fun _ => 0⟩ (oneEmptyFile ℕ).cfi] = some (s'.counts, rs) ∧
      s'.size = 4096 * ({k | (s'.counts k).isSome}.ncard + s'.cfi.freeSlots) := by
  have hput : ((oneEmptyFile ℕ).durableStep (.insert ℕ) oneFileDoc (.put {} 7 (fillBlock 1))).map
      (fun x => x.1.db 7) = some (some ⟨0, 1, 0⟩) := by
    decide +kernel
  refine durable_packed (.insert ℕ) (fun _ => fillBlock 1) totalFirst_oneFileDoc nodup_oneFileDoc
    (durable_oneEmptyFile _) packed_oneEmptyFile ⟨⟨?_, rfl⟩, fun s hs => ⟨⟨?_, rfl⟩, fun _ _ =>
      ⟨⟨trivial, trivial⟩, fun _ _ => trivial⟩⟩⟩
  · exact ⟨rfl, rfl, rfl, fun _ => by decide, by simp [CountFits, oneEmptyFile]⟩
  · obtain ⟨x, hx, rfl⟩ := Option.map_eq_some_iff.1 hs
    have hdb : x.1.db 7 = some ⟨0, 1, 0⟩ := by simpa [hx] using hput
    refine ⟨rfl, rfl, rfl, by simp [hdb], fun bd hbd => ?_⟩
    obtain rfl : _ = bd := by simpa [hdb] using hbd
    decide

end Store

/-! ## The files of a client -/

namespace Client

variable {P Q : Type*} [DecidableEq P] [DecidableEq Q] {whd : WriteHashDb Key}
  {doHash : List UInt8 → Key} {content : Key → Block} {doc : List (XmlEvent Q)}

/-- A request that passes its checks does what it does without them, and keeps the store packed. -/
theorem serve_packed {c c' : Client (Store Key Q) P} {call : FileCall P} {r : FileReply}
    (hdoc : TotalFirst doc) (hnd : (paths doc).Nodup) (hdur : c.store.Durable content doc)
    (hpacked : c.store.Packed)
    (hsome : (c.serve doHash (Store.checked whd doHash content) call).isSome)
    (h : c.serve doHash (Store.blocks whd {}) call = some (c', r)) : c'.store.Packed := by
  cases call with
  | change op =>
    obtain ⟨⟨c₁, r₁⟩, hserve⟩ := Option.isSome_iff_exists.1 hsome
    obtain ⟨⟨c₂, ret⟩, hstep, -⟩ := Option.map_eq_some_iff.1 hserve
    obtain ⟨_, hblocks, rfl⟩ := step_simulates Store.checked_blocks (t := c.store) rfl hstep
    obtain ⟨⟨c₃, ret₃⟩, hstep₃, heq⟩ := Option.map_eq_some_iff.1 h
    obtain ⟨rfl, -⟩ := Prod.mk.inj (Option.some.inj (hblocks.symm.trans hstep₃))
    obtain ⟨rfl, -⟩ := Prod.mk.inj heq
    refine (step_keeps (I := fun s => s.Durable content doc ∧ s.Packed) ?_ ?_ hstep
      ⟨hdur, hpacked⟩).2
    · rintro s k d s' ret ⟨hs, hp⟩ hput
      obtain ⟨-, -, -, hregular, hcall⟩ := Store.checked_put hput doc
      obtain ⟨s₁, r₁, hcall₁, -, hs₁⟩ := hs.put whd hregular
      obtain ⟨rfl, rfl⟩ := Prod.mk.inj (Option.some.inj (hcall₁.symm.trans hcall))
      exact ⟨hs₁, hp.step hs hdoc hnd whd hregular rfl hcall⟩
    · rintro s k s' ret hs hdel
      obtain ⟨rfl, -⟩ := Store.checked_del hdel
      exact hs
  | read fh buf offset junk =>
    obtain ⟨out, -, heq⟩ := Option.map_eq_some_iff.1 h
    obtain ⟨rfl, -⟩ := Prod.mk.inj heq
    exact hpacked
  | getattr sz p =>
    obtain ⟨rfl, -⟩ := Prod.mk.inj (Option.some.inj h)
    exact hpacked
  | fgetattr fh =>
    obtain ⟨rfl, -⟩ := Prod.mk.inj (Option.some.inj h)
    exact hpacked

/-- A call of a client that is mounted again and again. -/
theorem Backed.packed {c c' : Client (Store Key Q) P} {s : FileSys P}
    (h : c.Backed doHash content doc s) (hpacked : c.store.Packed) (hdoc : TotalFirst doc)
    (hnd : (paths doc).Nodup) {call : MountCall P} (hpass : c.Passes whd doHash content call)
    {r : FileReply} (hcall : c.mounted doc doHash (Store.blocks whd {}) call = some (c', r)) :
    c'.store.Packed := by
  obtain ⟨t, hshelved, -⟩ := h
  cases call with
  | request call => exact serve_packed hdoc hnd hshelved.durable hpacked hpass.2 hcall
  | remount env base =>
    obtain ⟨s₁, hrestart, heq⟩ := Option.map_eq_some_iff.1 hcall
    obtain ⟨rfl, -⟩ := Prod.mk.inj heq
    have hregular : Store.Regular content c.store (.restart env base) := trivial
    have hstep : c.store.durableStep whd doc (.restart env base) = some (s₁, .restarted) := by
      rw [Store.durableStep, hrestart, Option.map_some]
    exact hpacked.step hshelved.durable hdoc hnd whd hregular trivial hstep

theorem packed_sevensClient : sevensClient.store.Packed := by
  obtain ⟨r, hstep, -, -⟩ := sevensStore_spec
  rw [sevensClient_store]
  exact Store.packed_oneEmptyFile.step (Store.durable_oneEmptyFile headBlock)
    Store.totalFirst_oneFileDoc Store.nodup_oneFileDoc (.insert Key) regular_sevens rfl hstep

end Client

end Agilefs
