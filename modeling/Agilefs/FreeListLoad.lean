import Agilefs.FreeListFile

/-!
# Loading a free list from any file

`init_free_chunk` takes the two counters from the file as they are. Its loop counts
`total_cnt` down by 1024 and stops at zero only, so with a `total_cnt` that is negative, no
multiple of 1024 or larger than the table it runs off `base`. A `current` that does not fit
`total_cnt` is taken over too, and the next call on the list runs off its pages.

`loadsSafely_iff` : loading is safe if and only if the counters of the file fit each other
and the table, with room for one more entry, and every page this entry and those in use are
on was allocated.
-/

namespace Agilefs

open CInt Posix Function ByteFile

namespace FreeChunkList

variable {P : Type*}

/-- The loop of `init_free_chunk` where each `malloc` may fail. Its result is not looked at, and
a `read` to a null pointer moves nothing. -/
def readPagesWith (fd : ℤ) (malloc : ℕ → Option Page) :
    ℕ → ℕ → ℤ → Os P × FreeChunkList → Option (Os P × FreeChunkList)
  | 0, _, _, _ => none
  | fuel + 1, i, total, (os, f) =>
    if total = 0 then some (os, f)
    else if h : i < 1024 then
      let (os, page) := match malloc i with
        | some p =>
          let (os, d) := os.read fd 4096
          (os, some (Page.ofBytes (overlay p.bytes d)))
        | none => (os, none)
      let f := { f with base := update f.base ⟨i, h⟩ page }
      readPagesWith fd malloc fuel (i + 1) (total - 1024) (os, f)
    else none

/-- `init_free_chunk` where each `malloc` may fail, with its open granted. -/
def initFreeChunkWith (os : Os P) (malloc : ℕ → Option Page) (path : P) :
    Option (Os P × FreeChunkList × ℤ) :=
  let f := empty
  if os.access path then
    let (os, fd) := os.openRead true path
    if fd = -1 then some (os, f, -1)
    else
      let (os, d) := os.read fd 8
      let f := f.readHeader d
      (readPagesWith fd malloc 1025 0 f.totalCnt (os, f)).map fun (os, f) => (os.close fd, f, 0)
  else some (os, f, 0)

theorem readPagesWith_some (fd : ℤ) (malloc : ℕ → Page) :
    ∀ (fuel i : ℕ) (total : ℤ) (s : Os P × FreeChunkList),
      readPagesWith fd (fun i => some (malloc i)) fuel i total s =
        readPages fd malloc fuel i total s
  | 0, _, _, _ => rfl
  | fuel + 1, i, total, (os, f) => by
    rw [readPagesWith, readPages]
    split_ifs
    · rfl
    · exact readPagesWith_some fd malloc fuel (i + 1) (total - 1024) _
    · rfl

/-- With every `malloc` succeeding this is `initFreeChunk`. -/
theorem initFreeChunkWith_some (os : Os P) (malloc : ℕ → Page) (path : P) :
    initFreeChunkWith os (fun i => some (malloc i)) path = initFreeChunk os malloc path := by
  simp only [initFreeChunkWith, initFreeChunk, initFreeChunkIf, readPagesWith_some]

/-! ## The loop -/

/-- A loop that ends has counted whole pages, all of them inside the table. -/
theorem readPagesWith_eq_some {fd : ℤ} {malloc : ℕ → Option Page} : ∀ (fuel i : ℕ) {total : ℤ}
    {os os' : Os P} {f f' : FreeChunkList}, i ≤ 1024 →
    readPagesWith fd malloc fuel i total (os, f) = some (os', f') →
    ∃ k : ℕ, total = 1024 * k ∧ i + k ≤ 1024 ∧ f'.totalCnt = f.totalCnt ∧
      f'.current = f.current ∧ ∀ j : Fin 1024, (f'.base j).isSome =
        if i ≤ j ∧ j < i + k then (malloc j).isSome else (f.base j).isSome
  | 0, _, _, _, _, _, _, _, h => by simp [readPagesWith] at h
  | fuel + 1, i, total, os, os', f, f', hi, h => by
    rw [readPagesWith] at h
    split_ifs at h with htot hlt
    · simp only [Option.some.injEq, Prod.mk.injEq] at h
      obtain ⟨-, rfl⟩ := h
      refine ⟨0, by simp [htot], by simpa using hi, rfl, rfl, fun j => ?_⟩
      rw [if_neg (by omega)]
    · obtain ⟨k, hk, hle, htotal, hcur, hbase⟩ := readPagesWith_eq_some fuel (i + 1) hlt h
      refine ⟨k + 1, by omega, by omega, htotal, hcur, fun j => ?_⟩
      rw [hbase]
      by_cases hj : j = ⟨i, hlt⟩
      · subst hj
        simp only [update_self]
        rw [if_neg (by simp), if_pos (by simp)]
        cases malloc i <;> rfl
      · have hne : (j : ℕ) ≠ i := fun h => hj (Fin.ext h)
        simp only [update_of_ne hj]
        exact if_congr (by omega) rfl rfl

/-- Whole pages inside the table are all read. -/
theorem readPagesWith_isSome (fd : ℤ) (malloc : ℕ → Option Page) : ∀ (k fuel i : ℕ)
    (s : Os P × FreeChunkList), k < fuel → i + k ≤ 1024 →
      (readPagesWith fd malloc fuel i (1024 * k) s).isSome
  | 0, fuel + 1, i, (os, f), _, _ => by simp [readPagesWith]
  | k + 1, fuel + 1, i, (os, f), hfuel, hik => by
    have htotal : ((1024 : ℤ) * ((k + 1 : ℕ) : ℤ)) ≠ 0 := by omega
    have hrest : (1024 : ℤ) * ((k + 1 : ℕ) : ℤ) - 1024 = 1024 * (k : ℤ) := by omega
    rw [readPagesWith, if_neg htotal, dif_pos (by omega : i < 1024), hrest]
    exact readPagesWith_isSome fd malloc k fuel (i + 1) _ (by omega) (by omega)

/-! ## The file -/

/-- The counters read from a file of content `c`; bytes that are missing stay those of the empty
list. -/
def counters (c : ByteFile) : FreeChunkList := empty.readHeader (c.pread 8 0)

/-- `init_free_chunk` reads the counters of the file and as many pages as they say. -/
theorem initFreeChunkWith_file {os : Os P} {path : P} {n : ℕ} {c : ByteFile}
    (h : os.fileAt path = some (n, c)) (malloc : ℕ → Option Page) :
    ∃ os₁ : Os P, initFreeChunkWith os malloc path =
      (readPagesWith os.nextFd malloc 1025 0 (counters c).totalCnt (os₁, counters c)).map
        fun r => (r.1.close os.nextFd, r.2, 0) := by
  obtain ⟨hlk, hc⟩ := Os.fileAt_eq_some.1 h
  have hacc : os.access path = true := by
    simp [Os.access, Os.lookup_eq_some.1 hlk]
  have hopen := Os.openRead_file hlk
  have hread : ((os.attach n).1.read (os.nextFd : ℤ) 8).2 = c.pread 8 0 := by
    simp [Os.read, hc]
  refine ⟨((os.attach n).1.read os.nextFd 8).1, ?_⟩
  simp only [initFreeChunkWith, hacc, if_true, hopen,
    if_neg (by omega : ¬(os.nextFd : ℤ) = -1), hread, counters]

/-- Where nothing can be read the counters stay. -/
theorem readHeader_nil : empty.readHeader [] = empty := by
  have hsame : empty.readHeader [] = empty.readHeader empty.header := by
    rw [readHeader, readHeader, overlay_nil, overlay_of_length_le le_rfl]
  rw [hsame, readHeader_header (by decide) (by decide) (by decide) (by decide)]

/-- Without a regular file at the path the list stays empty. -/
theorem initFreeChunkWith_noFile {os : Os P} {path : P} (h : os.fileAt path = none)
    (malloc : ℕ → Option Page) :
    ∃ os' : Os P, initFreeChunkWith os malloc path = some (os', empty, 0) := by
  have hlk : os.lookup path = none := by simpa [Os.fileAt] using h
  by_cases hacc : os.access path
  · -- a directory
    obtain ⟨hread, hfd⟩ := Os.openRead_noFile hlk hacc 8
    simp only [initFreeChunkWith, hacc, if_true, hfd, if_neg (by omega : ¬(os.nextFd : ℤ) = -1),
      hread, readHeader_nil]
    exact ⟨_, rfl⟩
  · exact ⟨os, by simp [initFreeChunkWith, hacc]⟩

/-- What a load leaves : whole pages inside the table, allocated as far as their `malloc`
succeeded. -/
structure LoadedWith (malloc : ℕ → Option Page) (f : FreeChunkList) : Prop where
  total_mod : f.totalCnt % 1024 = 0
  total_nonneg : 0 ≤ f.totalCnt
  total_le : f.totalCnt ≤ 2 ^ 20
  base : ∀ q : Fin 1024, (f.base q).isSome ↔ (q : ℤ) * 1024 < f.totalCnt ∧ (malloc q).isSome

theorem loadedWith_empty (malloc : ℕ → Option Page) : LoadedWith malloc empty := by
  refine ⟨rfl, le_rfl, by decide, fun q => ?_⟩
  simp only [empty, Option.isSome_none, Bool.false_eq_true, false_iff, not_and]
  omega

theorem LoadedWith.of_readPagesWith {fd : ℤ} {malloc : ℕ → Option Page} {c : ByteFile}
    {os os' : Os P} {f : FreeChunkList}
    (h : readPagesWith fd malloc 1025 0 (counters c).totalCnt (os, counters c) = some (os', f)) :
    LoadedWith malloc f ∧ f.totalCnt = (counters c).totalCnt ∧
      f.current = (counters c).current := by
  obtain ⟨k, hk, hle, htot, hcur, hbase⟩ := readPagesWith_eq_some 1025 0 (Nat.zero_le _) h
  have htot' : f.totalCnt = 1024 * (k : ℤ) := htot.trans hk
  refine ⟨⟨by omega, by omega, by omega, fun q => ?_⟩, htot, hcur⟩
  rw [hbase q, htot']
  split_ifs with hq
  · exact ⟨fun h => ⟨by omega, h⟩, fun h => h.2⟩
  · simp only [counters, readHeader, empty, Option.isSome_none, Bool.false_eq_true, false_iff,
      not_and]
    omega

/-! ## Lists that can be used -/

/-- The counters fit each other and the table, the pages in use are allocated, and the next call
stays on allocated pages. -/
structure Usable (f : FreeChunkList) : Prop where
  current : (-1 ≤ f.current ∧ f.current < f.totalCnt) ∨ (f.current = -1 ∧ f.totalCnt = 0)
  total_le : f.totalCnt ≤ 2 ^ 20
  pages : ∀ q : Fin 1024, (q : ℤ) ≤ f.current / 1024 → (f.base q).isSome
  get : f.getFirstFreeChunk.isSome
  add : ∀ offset malloc, (f.addFreeChunk offset malloc).isSome

/-- The counters fit each other and the table, there is room for an entry, and the pages of this
entry and of those in use are allocated. -/
structure Fitting (malloc : ℕ → Option Page) (f : FreeChunkList) : Prop where
  total_mod : f.totalCnt % 1024 = 0
  total_le : f.totalCnt ≤ 2 ^ 20
  le_current : -1 ≤ f.current
  current_lt : f.current < f.totalCnt
  room : f.current + 1 < 2 ^ 20
  pages : ∀ i : ℕ, (i : ℤ) * 1024 ≤ f.current + 1 → (i : ℤ) * 1024 < f.totalCnt →
    (malloc i).isSome

theorem setFreeList_isSome {f : FreeChunkList} {i : ℤ} {v : UInt32} :
    (f.setFreeList i v).isSome ↔ ∃ q, pageIndex i = some q ∧ (f.base q).isSome := by
  cases hq : pageIndex i <;> simp [setFreeList, hq]

/-- A push below `total_cnt` needs the page of the entry. -/
theorem addFreeChunk_isSome_of_lt {f : FreeChunkList} (h : f.current + 1 < f.totalCnt)
    (offset : ℤ) (malloc : Option Page) :
    (f.addFreeChunk offset malloc).isSome ↔
      ∃ q, pageIndex (f.current + 1) = some q ∧ (f.base q).isSome := by
  rw [← setFreeList_isSome (f := { f with current := f.current + 1 }) (v := UInt32.ofInt offset)]
  simp only [addFreeChunk, if_neg (by omega : ¬f.current + 1 ≥ f.totalCnt), bind,
    Option.isSome_bind]
  cases setFreeList { f with current := f.current + 1 } (f.current + 1) (UInt32.ofInt offset) <;>
    rfl

/-- A push beyond `total_cnt` brings its page along, if the table has one for it. -/
theorem addFreeChunk_isSome_of_ge {f : FreeChunkList} (h : f.totalCnt ≤ f.current + 1)
    (offset : ℤ) (malloc : Option Page) :
    (f.addFreeChunk offset malloc).isSome ↔
      malloc = none ∨ (pageIndex (f.current + 1)).isSome := by
  simp only [addFreeChunk, ge_iff_le, if_pos h]
  cases malloc with
  | none => simp
  | some p => cases hq : pageIndex (f.current + 1) <;> simp [setPage, setFreeList, hq]

theorem pageIndex_isSome {i : ℤ} : (pageIndex i).isSome ↔ 0 ≤ i ∧ i < 2 ^ 20 := by
  unfold pageIndex
  split_ifs with h
  · simp only [Option.isSome_some, true_iff]
    omega
  · simp only [Option.isSome_none, Bool.false_eq_true, false_iff]
    omega

theorem toNat_div_lt {i : ℤ} (h₀ : 0 ≤ i) (h₁ : i < 2 ^ 20) : (i / 1024).toNat < 1024 := by
  omega

/-- The page of an entry of the table. -/
theorem isSome_page_iff {f : FreeChunkList} {i : ℤ} (h₀ : 0 ≤ i) (h₁ : i < 2 ^ 20) :
    (∃ q, pageIndex i = some q ∧ (f.base q).isSome) ↔
      (f.base ⟨(i / 1024).toNat, toNat_div_lt h₀ h₁⟩).isSome := by
  rw [pageIndex_eq h₀ h₁]
  simp

variable {malloc : ℕ → Option Page} {f : FreeChunkList}

theorem LoadedWith.fitting (h : LoadedWith malloc f) (hu : f.Usable) : Fitting malloc f := by
  have hle := h.total_le
  have hbounds : -1 ≤ f.current ∧ f.current < f.totalCnt := by
    rcases hu.current with hc | ⟨hc, ht⟩
    · exact hc
    · omega
  obtain ⟨hc₀, hc₁⟩ := hbounds
  have hroom : f.current + 1 < 2 ^ 20 := by
    by_contra hfull
    have hadd := hu.add 0 (some fun _ => 0)
    rw [addFreeChunk_isSome_of_ge (by omega), pageIndex_isSome] at hadd
    simp only [reduceCtorEq, false_or] at hadd
    omega
  refine ⟨h.total_mod, hle, hc₀, hc₁, hroom, fun i hi hlt => ?_⟩
  have hbase := h.base ⟨i, by omega⟩
  simp only at hbase
  by_cases hic : (i : ℤ) * 1024 ≤ f.current
  · exact (hbase.1 (hu.pages ⟨i, by omega⟩ (by simp only; omega))).2
  · -- the page of the next entry
    have hadd := hu.add 0 none
    rw [addFreeChunk_isSome_of_lt (by omega), isSome_page_iff (by omega) hroom] at hadd
    have hidx : ((f.current + 1) / 1024).toNat = i := by omega
    simp only [hidx] at hadd
    exact (hbase.1 hadd).2

theorem LoadedWith.usable (h : LoadedWith malloc f) (hf : Fitting malloc f) : f.Usable := by
  have hc₀ := hf.le_current
  have hc₁ := hf.current_lt
  have hroom := hf.room
  have hpage : ∀ i : ℤ, 0 ≤ i → i ≤ f.current + 1 → i < f.totalCnt →
      ∃ q, pageIndex i = some q ∧ (f.base q).isSome := by
    intro i h₀ hi hlt
    rw [isSome_page_iff h₀ (by omega), h.base]
    simp only
    exact ⟨by omega, hf.pages _ (by omega) (by omega)⟩
  refine ⟨Or.inl ⟨hc₀, hc₁⟩, hf.total_le, fun q hq => ?_, ?_, fun offset m => ?_⟩
  · exact (h.base q).2 ⟨by omega, hf.pages q (by omega) (by omega)⟩
  · unfold getFirstFreeChunk
    split_ifs with hcur
    · rfl
    · obtain ⟨q, hq, hb⟩ := hpage f.current (by omega) (by omega) hc₁
      obtain ⟨p, hp⟩ := Option.isSome_iff_exists.1 hb
      simp [freeList, hq, hp]
  · rcases lt_or_ge (f.current + 1) f.totalCnt with hlt | hge
    · rw [addFreeChunk_isSome_of_lt hlt]
      exact hpage _ (by omega) le_rfl hlt
    · rw [addFreeChunk_isSome_of_ge hge, pageIndex_isSome]
      exact Or.inr ⟨by omega, hroom⟩

theorem Fitting.of_counters {f' : FreeChunkList} (h : Fitting malloc f)
    (htot : f'.totalCnt = f.totalCnt) (hcur : f'.current = f.current) : Fitting malloc f' := by
  obtain ⟨h₁, h₂, h₃, h₄, h₅, h₆⟩ := h
  rw [← htot] at h₁ h₂ h₄ h₆
  rw [← hcur] at h₃ h₄ h₅ h₆
  exact ⟨h₁, h₂, h₃, h₄, h₅, h₆⟩

theorem fitting_empty (malloc : ℕ → Option Page) : Fitting malloc empty :=
  ⟨rfl, by decide, by decide, by decide, by decide, fun i _ hi => by simp only [empty] at hi; omega⟩

/-! ## Loading -/

/-- `init_free_chunk` ends after at most `FREE_CHUNK_MAX` iterations, all of its stores inside
the table, and leaves a list that can be used if it returns `0`. -/
def LoadsSafely (os : Os P) (malloc : ℕ → Option Page) (path : P) : Prop :=
  ∃ os' f ret, initFreeChunkWith os malloc path = some (os', f, ret) ∧ (ret = 0 → f.Usable)

theorem LoadsSafely.fitting {os : Os P} {path : P} (h : LoadsSafely os malloc path) {n : ℕ}
    {c : ByteFile} (hat : os.fileAt path = some (n, c)) : Fitting malloc (counters c) := by
  obtain ⟨os', f, ret, hload, hu⟩ := h
  obtain ⟨os₁, heq⟩ := initFreeChunkWith_file hat malloc
  rw [heq] at hload
  obtain ⟨⟨os₂, f₂⟩, hrun, hres⟩ := Option.map_eq_some_iff.1 hload
  simp only [Prod.mk.injEq] at hres
  obtain ⟨-, rfl, rfl⟩ := hres
  obtain ⟨hloaded, htot, hcur⟩ := LoadedWith.of_readPagesWith hrun
  exact (hloaded.fitting (hu rfl)).of_counters htot.symm hcur.symm

theorem Fitting.loadsSafely {os : Os P} {path : P} {n : ℕ} {c : ByteFile}
    (hf : Fitting malloc (counters c)) (hat : os.fileAt path = some (n, c)) :
    LoadsSafely os malloc path := by
  obtain ⟨os₁, heq⟩ := initFreeChunkWith_file hat malloc
  have hmod := hf.total_mod
  have hlt := hf.current_lt
  have hle := hf.total_le
  have hc₀ := hf.le_current
  -- whole pages, so the loop meets zero
  obtain ⟨k, hk⟩ : ∃ k : ℕ, (counters c).totalCnt = 1024 * k :=
    ⟨((counters c).totalCnt / 1024).toNat, by omega⟩
  have hsome := readPagesWith_isSome os.nextFd malloc k 1025 0 (os₁, counters c) (by omega)
    (by omega)
  obtain ⟨⟨os', f⟩, hrun⟩ := Option.isSome_iff_exists.1 hsome
  rw [← hk] at hrun
  obtain ⟨hloaded, htot, hcur⟩ := LoadedWith.of_readPagesWith hrun
  exact ⟨_, f, 0, by rw [heq, hrun]; rfl, fun _ => hloaded.usable (hf.of_counters htot hcur)⟩

/-- Loading is safe if and only if the counters of the file, if there is one, are fitting. -/
theorem loadsSafely_iff (os : Os P) (malloc : ℕ → Option Page) (path : P) :
    LoadsSafely os malloc path ↔
      ∀ n c, os.fileAt path = some (n, c) → Fitting malloc (counters c) := by
  refine ⟨fun h n c hat => h.fitting hat, fun h => ?_⟩
  cases hat : os.fileAt path with
  | none =>
    obtain ⟨os', heq⟩ := initFreeChunkWith_noFile hat malloc
    exact ⟨os', empty, 0, heq, fun _ => (loadedWith_empty malloc).usable (fitting_empty malloc)⟩
  | some r => exact (h r.1 r.2 hat).loadsSafely hat

/-! ## Every `malloc` succeeding -/

/-- Without its open `init_free_chunk` leaves the empty list. -/
theorem initFreeChunkIf_refused (os : Os P) (malloc : ℕ → Page) (path : P) :
    initFreeChunkIf false os malloc path = some (os, empty, if os.access path then -1 else 0) := by
  by_cases hacc : os.access path <;> simp [initFreeChunkIf, hacc, Os.openRead]

/-- `init_free_chunk` does not run off the table if and only if `total_cnt` counts whole pages of
it, or is not read. -/
theorem initFreeChunkIf_isSome_iff {granted : Bool} {os : Os P} {malloc : ℕ → Page} {path : P} :
    (initFreeChunkIf granted os malloc path).isSome ↔
      (granted → ∀ n c, os.fileAt path = some (n, c) → (counters c).totalCnt % 1024 = 0 ∧
        0 ≤ (counters c).totalCnt ∧ (counters c).totalCnt ≤ 2 ^ 20) := by
  cases granted with
  | false => simp [initFreeChunkIf_refused]
  | true =>
    rw [← initFreeChunk, ← initFreeChunkWith_some]
    cases hat : os.fileAt path with
    | none =>
      obtain ⟨os', heq⟩ := initFreeChunkWith_noFile hat fun i => some (malloc i)
      simp [heq]
    | some r =>
      obtain ⟨n, c⟩ := r
      obtain ⟨os₁, heq⟩ := initFreeChunkWith_file hat fun i => some (malloc i)
      simp only [heq, Option.isSome_map, Option.some.injEq, Prod.mk.injEq, forall_const]
      constructor
      · rintro h n' c' ⟨-, rfl⟩
        obtain ⟨⟨os', f⟩, hrun⟩ := Option.isSome_iff_exists.1 h
        obtain ⟨hload, htot, -⟩ := LoadedWith.of_readPagesWith hrun
        exact ⟨htot ▸ hload.total_mod, htot ▸ hload.total_nonneg, htot ▸ hload.total_le⟩
      · intro h
        obtain ⟨hmod, h₀, h₁⟩ := h n c ⟨rfl, rfl⟩
        have hk : (counters c).totalCnt = 1024 * (((counters c).totalCnt / 1024).toNat : ℤ) := by
          omega
        rw [hk]
        exact readPagesWith_isSome _ _ _ 1025 0 _ (by omega) (by omega)

/-- `init_free_chunk` returns `0` unless there is something at the path and its open is refused. -/
theorem initFreeChunkIf_eq_zero_iff {granted : Bool} {os os' : Os P} {malloc : ℕ → Page} {path : P}
    {f : FreeChunkList} {r : ℤ} (h : initFreeChunkIf granted os malloc path = some (os', f, r)) :
    r = 0 ↔ (os.access path → granted) := by
  cases granted with
  | false =>
    rw [initFreeChunkIf_refused, Option.some.injEq, Prod.mk.injEq, Prod.mk.injEq] at h
    rw [← h.2.2]
    cases os.access path <;> simp
  | true =>
    rw [← initFreeChunk, ← initFreeChunkWith_some] at h
    refine iff_of_true ?_ fun _ => rfl
    cases hat : os.fileAt path with
    | none =>
      obtain ⟨os₁, heq⟩ := initFreeChunkWith_noFile hat fun i => some (malloc i)
      rw [heq, Option.some.injEq, Prod.mk.injEq, Prod.mk.injEq] at h
      exact h.2.2.symm
    | some c =>
      obtain ⟨os₁, heq⟩ := initFreeChunkWith_file hat fun i => some (malloc i)
      rw [heq] at h
      obtain ⟨r', -, hres⟩ := Option.map_eq_some_iff.1 h
      simp only [Prod.mk.injEq] at hres
      exact hres.2.2.symm

theorem readPages_opens {os₀ : Os P} {fd : ℤ} (hfd : os₀.nextFd ≤ fd) {malloc : ℕ → Page} :
    ∀ (fuel i : ℕ) {total : ℤ} {os os' : Os P} {f f' : FreeChunkList}, os₀.Opens os →
      readPages fd malloc fuel i total (os, f) = some (os', f') → os₀.Opens os'
  | 0, _, _, _, _, _, _, _, h => by simp [readPages] at h
  | fuel + 1, i, total, os, os', f, f', ho, h => by
    rw [readPages] at h
    split_ifs at h
    · simp only [Option.some.injEq, Prod.mk.injEq] at h
      exact h.1 ▸ ho
    · exact readPages_opens hfd fuel (i + 1) (ho.read hfd 4096) h

/-- `init_free_chunk` changes no file. -/
theorem initFreeChunkIf_opens {granted : Bool} {os os' : Os P} (hs : os.Sane) {malloc : ℕ → Page}
    {path : P} {f : FreeChunkList} {r : ℤ}
    (h : initFreeChunkIf granted os malloc path = some (os', f, r)) : os.Opens os' := by
  cases hacc : os.access path with
  | false =>
    simp only [initFreeChunkIf, hacc, Bool.false_eq_true, if_false, Option.some.injEq,
      Prod.mk.injEq] at h
    exact h.1 ▸ hs.opens
  | true =>
    cases granted with
    | false =>
      rw [initFreeChunkIf_refused, Option.some.injEq, Prod.mk.injEq] at h
      exact h.1 ▸ hs.opens
    | true =>
      simp only [initFreeChunkIf, hacc, if_true, Os.openRead_access hacc,
        if_neg (by omega : ¬(os.nextFd : ℤ) = -1)] at h
      obtain ⟨⟨os₁, f₁⟩, hrun, hres⟩ := Option.map_eq_some_iff.1 h
      simp only [Prod.mk.injEq] at hres
      have ho := readPages_opens le_rfl _ _ ((hs.opens.openRead true path).read le_rfl 8) hrun
      exact hres.1 ▸ ho.close le_rfl

/-- A file of content `c` at the path `0`. -/
def fileOf (c : ByteFile) : Os ℕ where
  names p := if p = 0 then some (.file 0) else none
  inodes _ := c
  nextIno := 1
  fds _ := none
  nextFd := 3

/-- With `total_cnt = 5` the loop runs off the table. With `total_cnt = 0` and `current = 0` the
load returns `0`, and the next `get_first_free_chunk` reads from a page that is not there. -/
theorem loads_counterexample :
    ¬LoadsSafely (fileOf [5, 0, 0, 0, 0, 0, 0, 0]) (fun _ => some fun _ => 0) 0 ∧
    (∃ os f, initFreeChunkWith (fileOf [0, 0, 0, 0, 0, 0, 0, 0]) (fun _ => some fun _ => 0) 0 =
      some (os, f, 0) ∧ f.getFirstFreeChunk = none) ∧
    ¬LoadsSafely (fileOf [0, 0, 0, 0, 0, 0, 0, 0]) (fun _ => some fun _ => 0) 0 := by
  have hat : ∀ c, (fileOf c).fileAt 0 = some (0, c) := fun c =>
    Os.fileAt_eq_some.2 ⟨Os.lookup_file rfl, rfl⟩
  refine ⟨fun h => ?_, ⟨_, _, rfl, rfl⟩, fun h => ?_⟩
  · have hmod := (h.fitting (hat _)).total_mod
    exact absurd hmod (by decide)
  · have hlt := (h.fitting (hat _)).current_lt
    exact absurd hlt (by decide)

end FreeChunkList

end Agilefs
