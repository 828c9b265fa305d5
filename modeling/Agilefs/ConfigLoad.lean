import Agilefs.FreeListLoad
import Agilefs.Restart

/-!
# Loading any configuration

`init_chunk_file` on any sequence of elements. A `total` allocates new arrays, a `file` stores at
the index after the last one used, whatever arrays there are, and no result of an open or of a
load is looked at. `Loading` runs the handler of `Restart` and notes what was stored since the
arrays were allocated. Each open is granted or refused.

`initChunkFile_iff` : `init_chunk_file` fills every slot or returns `-1` if and only if each
`file` element finds a slot and a free list that does not run off its table, and, where the parse
ends without an error, the last `total` counts exactly the `file` elements of the document, which
all follow it and all open, or counts none.
-/

namespace Agilefs

open Posix Function FreeChunkList

variable {P : Type*}

/-- What `chunk_file_parser` finds at its path : nothing, or a document, of which expat delivers
the events `doc` before it reports an error or the end. -/
inductive XmlFile (P : Type*) where
  | missing
  | parsed (doc : List (XmlEvent P)) (ok : Bool)

/-- `chunk_file_parser`, with the events handled by `step`. -/
def chunkFileParser {S : Type*} (step : S → XmlEvent P → Option S) (s : S) :
    XmlFile P → Option (S × ℤ)
  | .missing => some (s, -1)
  | .parsed doc ok => (Runs.exec step s doc).map fun s => (s, if ok then 0 else -1)

/-- A load, with the element stored at each index of the arrays and the file system before it. -/
structure Loading (P : Type*) where
  os : Os P
  x : ChunkFileInfoXml
  stored : ℕ → Option (Os P × P × P)

variable [DecidableEq P]

namespace Loading

/-- What is stored in the arrays after the event. -/
def note (s : Loading P) : XmlEvent P → ℕ → Option (Os P × P × P)
  | .start (.total _) => fun _ => none
  | .start (.file path freeList) => update s.stored s.x.i (some (s.os, path, freeList))
  | .start .other | .finish => s.stored

/-- One event. -/
def step (opens : InitOpens) (env : InitEnv) (s : Loading P) (e : XmlEvent P) :
    Option (Loading P) :=
  (xmlStep (startElementInit opens env) (s.os, s.x) e).map fun r => ⟨r.1, r.2, s.note e⟩

/-- The start of `init_chunk_file` on the zero-initialised structure, whose arrays are null. -/
def begin (os : Os P) (base : ChunkFileInfo) : Loading P :=
  ⟨os, ⟨{ base with total := 0 }, 0, 0, 0⟩, fun _ => none⟩

/-- A load does what the handler does. -/
theorem exec_step (opens : InitOpens) (env : InitEnv) : ∀ (doc : List (XmlEvent P))
    (s : Loading P), (Runs.exec (step opens env) s doc).map (fun s => (s.os, s.x)) =
      Runs.exec (xmlStep (startElementInit opens env)) (s.os, s.x) doc
  | [], _ => rfl
  | e :: doc, s => by
    rw [Runs.exec, Runs.exec, step]
    cases xmlStep (startElementInit opens env) (s.os, s.x) e with
    | none => rfl
    | some r => exact exec_step opens env doc ⟨r.1, r.2, s.note e⟩

/-- Index `j` of the arrays has an open descriptor of the chunk file, its size, and the free list
that a load which returned `0` left. `os₀` is the file system before the element. -/
structure Filled (opens : InitOpens) (env : InitEnv) (s : Loading P) (j : ℕ) (os₀ : Os P)
    (path freeList : P) : Prop where
  opened : ∃ n, s.os.ino (s.x.cfi.fds j) = some n ∧ s.os.lookup path = some n ∧
    s.x.cfi.curSize j = (s.os.inodes n).length
  loaded : ∃ os₁, initFreeChunkIf (opens.list j) (os₀.openCreat (opens.file j) path).1
    (env.malloc j) freeList = some (os₁, s.x.cfi.fcls j, 0)

/-- Every slot is filled and no other, and the file that is chosen for a block is one of them. -/
structure Loaded (opens : InitOpens) (env : InitEnv) (s : Loading P) : Prop where
  filled : ∀ j : ℕ, (j : ℤ) < s.x.cfi.total → ∃ os₀ path freeList,
    s.stored j = some (os₀, path, freeList) ∧ s.Filled opens env j os₀ path freeList
  inside : ∀ j : ℕ, (s.stored j).isSome → (j : ℤ) < s.x.cfi.total
  chosen : ∀ j : ℕ, s.x.cfi.getProperChunkFile = j → (s.stored j).isSome

end Loading

/-- `init_chunk_file` stores inside the arrays, and fills every slot unless it returns `-1`. -/
def FillsSlots (opens : InitOpens) (env : InitEnv) (os : Os P) (base : ChunkFileInfo)
    (file : XmlFile P) : Prop :=
  ∃ s ret, chunkFileParser (Loading.step opens env) (Loading.begin os base) file = some (s, ret) ∧
    (ret = 0 → s.Loaded opens env)

/-! ## What the configuration has to be -/

/-- The chunk file number `i` is opened or created, and then the free list is opened too, unless
there is none. -/
def ElementOpens (opens : InitOpens) (i : ℕ) (os : Os P) (path freeList : P) : Prop :=
  (opens.file i ∧ os.Openable path) ∧
    ((os.openCreat (opens.file i) path).1.access freeList → opens.list i)

/-- The free list at the path, if there is one, has whole pages of the table. -/
def WholePages (os : Os P) (freeList : P) : Prop :=
  ∀ n c, os.fileAt freeList = some (n, c) → (counters c).totalCnt % 1024 = 0 ∧
    0 ≤ (counters c).totalCnt ∧ (counters c).totalCnt ≤ 2 ^ 20

/-- Each `file` element finds a slot, if `len` were allocated and `i` used, and whole pages in the
free list it opens. -/
def FindsSlots (opens : InitOpens) (os : Os P) (len i : ℕ) : List (XmlEvent P) → Prop
  | [] => True
  | .start (.total count) :: doc => FindsSlots opens os count.toNat i doc
  | .start (.file path freeList) :: doc =>
    let os' := (os.openCreat (opens.file i) path).1
    i < len ∧ (opens.list i → WholePages os' freeList) ∧ FindsSlots opens os' len (i + 1) doc
  | .start .other :: doc | .finish :: doc => FindsSlots opens os len i doc

/-- The last `total` counts no slot, or comes before the `file` elements, counts them, and all of
them open. `first` slots were used before the last `total`, `i` until now, and `opened` says that
all since it did. -/
def FillsLast (opens : InitOpens) (os : Os P) (len first i : ℕ) (opened : Prop) :
    List (XmlEvent P) → Prop
  | [] => (len = 0 ∨ first = 0 ∧ i = len) ∧ opened
  | .start (.total count) :: doc => FillsLast opens os count.toNat i i True doc
  | .start (.file path freeList) :: doc =>
    FillsLast opens (os.openCreat (opens.file i) path).1 len first (i + 1)
      (opened ∧ ElementOpens opens i os path freeList) doc
  | .start .other :: doc | .finish :: doc => FillsLast opens os len first i opened doc

/-- The configurations that `init_chunk_file` handles. -/
def XmlFile.Fits (opens : InitOpens) (os : Os P) : XmlFile P → Prop
  | .missing => True
  | .parsed doc ok =>
    FindsSlots opens os 0 0 doc ∧ (ok → FillsLast opens os 0 0 0 True doc)

/-! ## One event -/

/-- Descriptors are not negative. -/
structure Settled (os : Os P) : Prop extends os.Sane where
  negative : ∀ fd : ℤ, fd < 0 → os.fds fd = none

/-- What the store to index `j` left. -/
structure Recorded (opens : InitOpens) (env : InitEnv) (os : Os P) (cfi : ChunkFileInfo) (j : ℕ)
    (os₀ : Os P) (path freeList : P) : Prop where
  loaded : ∃ os₁ r, initFreeChunkIf (opens.list j) (os₀.openCreat (opens.file j) path).1
    (env.malloc j) freeList = some (os₁, cfi.fcls j, r)
  opened : opens.file j ∧ os₀.Openable path → ∃ n, os.ino (cfi.fds j) = some n ∧
    os.lookup path = some n ∧ cfi.curSize j = (os.inodes n).length
  failed : ¬(opens.file j ∧ os₀.Openable path) → cfi.fds j = -1

/-- The state of a load in which `first` slots were used before the arrays were allocated, and all
elements stored since opened if `opened`. -/
structure Progress (opens : InitOpens) (env : InitEnv) (s : Loading P) (first : ℕ)
    (opened : Prop) : Prop where
  settled : Settled s.os
  first_le : first ≤ s.x.i
  len : s.x.len = s.x.cfi.total.toNat
  stored : ∀ j, (s.stored j).isSome ↔ first ≤ j ∧ j < s.x.i
  inside : ∀ j, (s.stored j).isSome → j < s.x.len
  recorded : ∀ j os₀ path freeList, s.stored j = some (os₀, path, freeList) →
    Recorded opens env s.os s.x.cfi j os₀ path freeList
  opened : opened ↔ ∀ j os₀ path freeList, s.stored j = some (os₀, path, freeList) →
    ElementOpens opens j os₀ path freeList

variable {opens : InitOpens} {env : InitEnv} {os os' : Os P} {s s' : Loading P}
  {first : ℕ} {opened : Prop}

omit [DecidableEq P] in
/-- An open file keeps its inode, and the inode its content. -/
theorem exists_ino_of_grows (hs : os.Sane) (h : os.Grows os') {fd : ℤ} {path : P} {size n : ℕ}
    (hino : os.ino fd = some n) (hpath : os.lookup path = some n)
    (hsize : size = (os.inodes n).length) :
    os'.ino fd = some n ∧ os'.lookup path = some n ∧ size = (os'.inodes n).length := by
  obtain ⟨f, hf, -⟩ := Option.map_eq_some_iff.1 hino
  have hlt := hs.resolve_lt (Os.lookup_eq_some.1 hpath)
  refine ⟨?_, h.lookup path n hpath, by rw [h.inodes n hlt, hsize]⟩
  rw [Os.ino, h.fds fd (hs.opened fd f hf), ← Os.ino, hino]

theorem Recorded.of_grows {cfi cfi' : ChunkFileInfo} {j : ℕ} {os₀ : Os P} {path freeList : P}
    (hr : Recorded opens env os cfi j os₀ path freeList) (hs : os.Sane) (h : os.Grows os')
    (hfds : cfi'.fds j = cfi.fds j) (hsize : cfi'.curSize j = cfi.curSize j)
    (hfcls : cfi'.fcls j = cfi.fcls j) : Recorded opens env os' cfi' j os₀ path freeList := by
  refine ⟨by rw [hfcls]; exact hr.loaded, fun ho => ?_, fun hno => hfds.trans (hr.failed hno)⟩
  obtain ⟨n, hino, hpath, hlen⟩ := hr.opened ho
  rw [hfds, hsize]
  exact ⟨n, exists_ino_of_grows hs h hino hpath hlen⟩

/-- A `total` element forgets what was stored. -/
theorem Progress.total (h : Progress opens env s first opened) (count : ℤ) :
    ∃ s', s.step opens env (.start (.total count)) = some s' ∧ Progress opens env s' s.x.i True ∧
      s'.os = s.os ∧ s'.x.len = count.toNat ∧ s'.x.i = s.x.i := by
  refine ⟨_, rfl, ⟨h.settled, le_rfl, rfl, fun j => ?_, ?_, ?_, ?_⟩, rfl, rfl, rfl⟩
  · simp only [Loading.note, Option.isSome_none, Bool.false_eq_true, false_iff]
    omega
  · simp [Loading.note]
  · simp [Loading.note]
  · simp [Loading.note]

/-- Other events change the depth only. -/
theorem Progress.of_depth (h : Progress opens env s first opened) (depth : ℤ) :
    Progress opens env { s with x := { s.x with depth := depth } } first opened :=
  ⟨h.settled, h.first_le, h.len, h.stored, h.inside, h.recorded, h.opened⟩

/-- Opening and creating keeps what was stored. -/
theorem openCreat_settled (hs : Settled os) (granted : Bool) (path : P) :
    Settled (os.openCreat granted path).1 ∧ os.Grows (os.openCreat granted path).1 := by
  by_cases ho : granted ∧ os.Openable path
  · obtain ⟨rfl, ho⟩ := ho
    obtain ⟨os', n, heq, hsane, hgrows, -⟩ := hs.toSane.openCreat ho
    rw [heq]
    refine ⟨⟨hsane, fun fd hfd => ?_⟩, hgrows⟩
    rw [hgrows.fds fd (by omega), hs.negative fd hfd]
  · rw [Os.openCreat_failed ho]
    exact ⟨hs, hs.toSane.opens.grows⟩

omit [DecidableEq P] in
theorem Settled.of_opens (hs : Settled os) (h : os.Opens os') : Settled os' :=
  ⟨h.sane hs.toSane, fun fd hfd => by rw [h.fds fd (by omega), hs.negative fd hfd]⟩

/-- A `file` element needs a slot and whole pages. -/
theorem Loading.isSome_step_file (env : InitEnv) {path freeList : P} :
    (s.step opens env (.start (.file path freeList))).isSome ↔ s.x.i < s.x.len ∧
      (opens.list s.x.i → WholePages (s.os.openCreat (opens.file s.x.i) path).1 freeList) := by
  simp only [Loading.step, xmlStep, startElementInit, Option.isSome_map]
  split_ifs with hlt
  · rw [Option.isSome_map, initFreeChunkIf_isSome_iff]
    simp only [hlt, true_and]
    rfl
  · simp [hlt]

/-- What a `file` element stores. -/
theorem recorded_file (hs : Settled os) {cfi : ChunkFileInfo} {i size : ℕ} {path freeList : P}
    {fcl : FreeChunkList} {r : ℤ}
    (hinit : initFreeChunkIf (opens.list i) (os.openCreat (opens.file i) path).1 (env.malloc i)
      freeList = some (os', fcl, r))
    (hsize : size = (((os.openCreat (opens.file i) path).1.ino
        (os.openCreat (opens.file i) path).2).map fun n =>
      ((os.openCreat (opens.file i) path).1.inodes n).length).getD (env.statbuf i)) :
    Recorded opens env os' (cfi.setFile i (os.openCreat (opens.file i) path).2 size fcl) i os path
      freeList := by
  refine ⟨⟨os', r, by simpa using hinit⟩, fun ⟨hgranted, ho⟩ => ?_, fun ho => ?_⟩
  · obtain ⟨os₁, n, heq, hsane, -, hino, hpath, -⟩ := hs.toSane.openCreat ho
    rw [hgranted] at hinit hsize ⊢
    simp only [heq] at hinit hsize ⊢
    rw [hino, Option.map_some, Option.getD_some] at hsize
    simp only [ChunkFileInfo.setFile_fds, ChunkFileInfo.setFile_curSize, if_true]
    exact ⟨n, exists_ino_of_grows hsane (initFreeChunkIf_opens hsane hinit).grows hino hpath hsize⟩
  · simp [Os.openCreat_failed ho]

omit [DecidableEq P] in
theorem Loading.note_file (s : Loading P) (path freeList : P) (j : ℕ) :
    s.note (.start (.file path freeList)) j =
      if j = s.x.i then some (s.os, path, freeList) else s.stored j :=
  update_apply _ _ _ _

theorem Progress.stored_next (h : Progress opens env s first opened) : s.stored s.x.i = none := by
  by_contra hne
  have := (h.stored s.x.i).1 (Option.isSome_iff_ne_none.2 hne)
  omega

/-- All elements stored open if and only if those before the last one do, and the last one. -/
theorem Progress.opened_note (h : Progress opens env s first opened) (path freeList : P) :
    opened ∧ ElementOpens opens s.x.i s.os path freeList ↔
      ∀ j os₀ p q, s.note (.start (.file path freeList)) j = some (os₀, p, q) →
        ElementOpens opens j os₀ p q := by
  rw [h.opened]
  constructor
  · rintro ⟨hall, hnew⟩ j os₀ p q hj
    rw [s.note_file] at hj
    split_ifs at hj with hji
    · obtain ⟨rfl, rfl, rfl⟩ : s.os = os₀ ∧ path = p ∧ freeList = q := by simpa using hj
      exact hji ▸ hnew
    · exact hall j os₀ p q hj
  · intro hall
    refine ⟨fun j os₀ p q hj => hall j os₀ p q ?_, hall s.x.i s.os path freeList ?_⟩
    · have hji : j ≠ s.x.i := by
        rintro rfl
        simp [h.stored_next] at hj
      rw [s.note_file, if_neg hji, hj]
    · rw [s.note_file, if_pos rfl]

/-- A `file` element stores at the next index. -/
theorem Progress.of_file (h : Progress opens env s first opened)
    {path freeList : P} (hstep : s.step opens env (.start (.file path freeList)) = some s') :
    Progress opens env s' first (opened ∧ ElementOpens opens s.x.i s.os path freeList) ∧
      (s.os.openCreat (opens.file s.x.i) path).1.SameFiles s'.os ∧ s'.x.len = s.x.len ∧
      s'.x.i = s.x.i + 1 := by
  have hlt := ((Loading.isSome_step_file env).1 (Option.isSome_iff_exists.2 ⟨s', hstep⟩)).1
  simp only [Loading.step, xmlStep, startElementInit, if_pos hlt, Option.map_map,
    Option.map_eq_some_iff] at hstep
  obtain ⟨⟨os₁, fcl, r⟩, hinit, rfl⟩ := hstep
  have hfirst := h.first_le
  obtain ⟨hset, hgrows⟩ := openCreat_settled h.settled (opens.file s.x.i) path
  have hopens := initFreeChunkIf_opens hset.toSane hinit
  refine ⟨⟨hset.of_opens hopens, hfirst.trans (Nat.le_succ _), h.len, fun j => ?_,
    fun j hj => ?_, fun j os₀ p q hj => ?_, h.opened_note path freeList⟩,
    hopens.sameFiles, rfl, rfl⟩
  · simp only [comp_apply, s.note_file]
    split_ifs with hji
    · simp only [Option.isSome_some, true_iff]
      omega
    · rw [h.stored]
      omega
  · simp only [comp_apply, s.note_file] at hj
    split_ifs at hj with hji
    · exact hji ▸ hlt
    · exact h.inside j hj
  · simp only [comp_apply, s.note_file] at hj
    split_ifs at hj with hji
    · obtain ⟨rfl, rfl, rfl⟩ : s.os = os₀ ∧ path = p ∧ freeList = q := by simpa using hj
      subst hji
      exact recorded_file h.settled hinit rfl
    · refine (h.recorded j os₀ p q hj).of_grows h.settled.toSane (hgrows.trans hopens.grows)
        ?_ ?_ ?_ <;> simp [hji]

/-! ## Whole documents -/

omit [DecidableEq P] in
theorem wholePages_congr (h : os.SameFiles os') (q : P) : WholePages os q ↔ WholePages os' q := by
  rw [WholePages, WholePages, h.fileAt]

theorem elementOpens_congr (h : os.SameFiles os') (i : ℕ) (p q : P) :
    ElementOpens opens i os p q ↔ ElementOpens opens i os' p q := by
  rw [ElementOpens, ElementOpens, h.openable, (h.openCreat (opens.file i) p).access]

/-- A document is handled without leaving the arrays if and only if its elements find slots, and
`FillsLast` says what is filled at its end. `os` has the files of the state. -/
theorem Progress.exec : ∀ (doc : List (XmlEvent P)) {os : Os P} {s : Loading P} {first : ℕ}
    {opened : Prop}, Progress opens env s first opened → os.SameFiles s.os →
    ((Runs.exec (Loading.step opens env) s doc).isSome ↔
        FindsSlots opens os s.x.len s.x.i doc) ∧
      ∀ s', Runs.exec (Loading.step opens env) s doc = some s' →
        ∃ first' opened', Progress opens env s' first' opened' ∧
          (FillsLast opens os s.x.len first s.x.i opened doc ↔
            (s'.x.len = 0 ∨ first' = 0 ∧ s'.x.i = s'.x.len) ∧ opened')
  | [], os, s, first, opened, h, _ => by
    refine ⟨by simp [Runs.exec, FindsSlots], fun s' hs' => ?_⟩
    obtain rfl : s = s' := by simpa [Runs.exec] using hs'
    exact ⟨first, opened, h, Iff.rfl⟩
  | .start (.total count) :: doc, os, s, first, opened, h, hos => by
    obtain ⟨s₁, hstep, h₁, hos₁, hlen, hi⟩ := h.total count
    have ih := Progress.exec doc h₁ (hos₁ ▸ hos)
    rw [hlen, hi] at ih
    rw [Runs.exec, hstep, Option.bind_some]
    exact ih
  | .start .other :: doc, os, s, first, opened, h, hos =>
    Progress.exec doc (h.of_depth (s.x.depth + 1)) hos
  | .finish :: doc, os, s, first, opened, h, hos =>
    Progress.exec doc (h.of_depth (s.x.depth - 1)) hos
  | .start (.file path freeList) :: doc, os, s, first, opened, h, hos => by
    rw [Runs.exec, FindsSlots, FillsLast,
      wholePages_congr (hos.openCreat (opens.file s.x.i) path),
      propext (elementOpens_congr hos s.x.i path freeList), ← and_assoc,
      ← Loading.isSome_step_file env]
    cases hstep : s.step opens env (.start (.file path freeList)) with
    | none => simp
    | some s₁ =>
      obtain ⟨h₁, hos₁, hlen, hi⟩ := h.of_file hstep
      have ih := Progress.exec doc h₁ ((hos.openCreat (opens.file s.x.i) path).trans hos₁)
      rw [hlen, hi] at ih
      simpa using ih

/-- Every slot is filled if and only if the elements stored last are as many as the slots, and all
of them opened. -/
theorem Progress.loaded_iff (h : Progress opens env s first opened) :
    s.Loaded opens env ↔ (s.x.len = 0 ∨ first = 0 ∧ s.x.i = s.x.len) ∧ opened := by
  have hlen := h.len
  have hfirst := h.first_le
  constructor
  · intro hl
    refine ⟨?_, h.opened.2 fun j os₀ p q hj => ?_⟩
    · rcases Nat.eq_zero_or_pos s.x.len with h0 | hpos
      · exact Or.inl h0
      · -- the first slot, the last one, and the last element
        have hstored : ∀ j : ℕ, j < s.x.len → first ≤ j ∧ j < s.x.i := by
          intro j hj
          obtain ⟨os₀, p, q, hrec, -⟩ := hl.filled j (by omega)
          exact (h.stored j).1 (by simp [hrec])
        obtain ⟨h₀, h₀'⟩ := hstored 0 hpos
        obtain ⟨-, h₁⟩ := hstored (s.x.len - 1) (by omega)
        have h₂ := h.inside (s.x.i - 1) ((h.stored _).2 (by omega))
        exact Or.inr (by omega)
    · obtain ⟨os₁, p', q', hrec, hfill⟩ := hl.filled j (hl.inside j (by simp [hj]))
      obtain ⟨rfl, rfl, rfl⟩ : os₀ = os₁ ∧ p = p' ∧ q = q' := by simpa [hj] using hrec
      refine ⟨?_, ?_⟩
      · by_contra hno
        obtain ⟨n, hino, -⟩ := hfill.opened
        rw [(h.recorded j _ _ _ hj).failed hno, Os.ino, h.settled.negative _ (by omega)] at hino
        cases hino
      · obtain ⟨os₁, hinit⟩ := hfill.loaded
        exact (initFreeChunkIf_eq_zero_iff hinit).1 rfl
  · rintro ⟨hfull, ho⟩
    have hinside : ∀ j, (s.stored j).isSome → (j : ℤ) < s.x.cfi.total := fun j hj => by
      have := h.inside j hj
      omega
    have hall : ∀ j : ℕ, (j : ℤ) < s.x.cfi.total → (s.stored j).isSome := fun j hj =>
      (h.stored j).2 (by omega)
    refine ⟨fun j hj => ?_, hinside, fun j hj => hall j ?_⟩
    · obtain ⟨⟨os₀, p, q⟩, hrec⟩ := Option.isSome_iff_exists.1 (hall j hj)
      obtain ⟨hopen, hread⟩ := h.opened.1 ho j os₀ p q hrec
      have hr := h.recorded j os₀ p q hrec
      obtain ⟨os₁, r, hinit⟩ := hr.loaded
      obtain rfl := (initFreeChunkIf_eq_zero_iff hinit).2 hread
      exact ⟨os₀, p, q, hrec, hr.opened hopen, os₁, hinit⟩
    · obtain ⟨i, hi, heq, -⟩ := ChunkFileInfo.exists_file_of_ne
        (by omega : s.x.cfi.getProperChunkFile ≠ -1)
      have hfiles : s.x.cfi.files = s.x.cfi.total.toNat := rfl
      omega

theorem progress_begin (hs : Settled os) (base : ChunkFileInfo) :
    Progress opens env (Loading.begin os base) 0 True :=
  ⟨hs, le_rfl, rfl, fun j => by simp [Loading.begin], by simp [Loading.begin],
    by simp [Loading.begin], by simp [Loading.begin]⟩

theorem FillsSlots.fits (hs : Settled os) {base : ChunkFileInfo} {file : XmlFile P}
    (h : FillsSlots opens env os base file) : file.Fits opens os := by
  cases file with
  | missing => trivial
  | parsed doc ok =>
    obtain ⟨s, ret, hrun, hl⟩ := h
    obtain ⟨s', hs', heq⟩ := Option.map_eq_some_iff.1 hrun
    obtain ⟨rfl, rfl⟩ := Prod.mk.inj heq
    have hp : Progress opens env (Loading.begin os base) 0 True := progress_begin hs base
    obtain ⟨hsome, hend⟩ := hp.exec doc ⟨rfl, rfl, rfl⟩
    obtain ⟨first, opened, h, hiff⟩ := hend s' hs'
    exact ⟨hsome.1 (by rw [hs']; rfl), fun hok => hiff.2 (h.loaded_iff.1 (hl (by simp [hok])))⟩

theorem XmlFile.Fits.fillsSlots (hs : Settled os) {base : ChunkFileInfo} {file : XmlFile P}
    (h : file.Fits opens os) : FillsSlots opens env os base file := by
  cases file with
  | missing => exact ⟨_, -1, rfl, fun h => by cases h⟩
  | parsed doc ok =>
    obtain ⟨hfind, hfill⟩ := h
    have hp : Progress opens env (Loading.begin os base) 0 True := progress_begin hs base
    obtain ⟨hsome, hend⟩ := hp.exec doc ⟨rfl, rfl, rfl⟩
    obtain ⟨s, hs⟩ := Option.isSome_iff_exists.1 (hsome.2 hfind)
    obtain ⟨first, opened, h, hiff⟩ := hend s hs
    refine ⟨s, if ok then 0 else -1, by rw [chunkFileParser, hs]; rfl, fun hret => ?_⟩
    have hok : ok := by
      by_contra hno
      simp [hno] at hret
    exact h.loaded_iff.2 (hiff.1 (hfill hok))

/-- `init_chunk_file` fills every slot and no other, or returns `-1`, if and only if the
configuration fits. -/
theorem initChunkFile_iff (opens : InitOpens) (env : InitEnv) (hs : Settled os)
    (base : ChunkFileInfo) (file : XmlFile P) :
    FillsSlots opens env os base file ↔ file.Fits opens os :=
  ⟨FillsSlots.fits hs, XmlFile.Fits.fillsSlots hs⟩

/-- No file and no open descriptor. -/
def bareOs : Os ℕ := ⟨fun _ => none, fun _ => [], 0, fun _ => none, 3⟩

/-- Fresh memory full of zeros. -/
def zeroEnv : InitEnv := ⟨fun _ _ _ => 0, fun _ => 0⟩

/-- The zero-initialised structure, whose arrays are null. -/
def zeroInfo : ChunkFileInfo := ⟨0, fun _ => 0, fun _ => 0, fun _ => ⟨0, 0, fun _ => none⟩⟩

theorem settled_bareOs : Settled bareOs where
  named _ _ h := by cases h
  opened _ _ h := by cases h
  negative _ _ := rfl

/-- One `total` and its two files. -/
theorem initChunkFile_iff_two :
    FillsSlots .granted zeroEnv bareOs zeroInfo (.parsed [.start .other, .start (.total 2),
      .start (.file 0 1), .finish, .start (.file 2 3), .finish, .finish] true) := by
  have hone : ((bareOs.openCreat true 0).1).fileAt 1 = none := rfl
  have hthree : (((bareOs.openCreat true 0).1.openCreat true 2).1).fileAt 3 = none := rfl
  refine (initChunkFile_iff .granted zeroEnv settled_bareOs zeroInfo _).2
    ⟨⟨by decide, fun _ n c h => ?_, by decide, fun _ n c h => ?_, trivial⟩,
      fun _ => ⟨Or.inr ⟨rfl, rfl⟩, ⟨trivial, ⟨rfl, Or.inr rfl⟩, fun _ => rfl⟩, ⟨rfl, Or.inr rfl⟩,
        fun _ => rfl⟩⟩
  · cases hone.symm.trans h
  · cases hthree.symm.trans h

/-- With `total` at two and one file, `init_chunk_file` returns `0` and leaves index `1` as the
`malloc` gave it. With `total` at one and two files, it stores outside the arrays. Where the chunk
file may not be opened, it returns `0` all the same. -/
theorem init_counterexample :
    ¬FillsSlots .granted zeroEnv bareOs zeroInfo
      (.parsed [.start (.total 2), .start (.file 0 1), .finish] true) ∧
    ¬FillsSlots .granted zeroEnv bareOs zeroInfo (.parsed [.start (.total 1),
      .start (.file 0 1), .finish, .start (.file 2 3), .finish] true) ∧
    ¬FillsSlots ⟨fun _ => false, fun _ => true⟩ zeroEnv bareOs zeroInfo
      (.parsed [.start (.total 1), .start (.file 0 1), .finish] true) := by
  refine ⟨fun h => ?_, fun h => ?_, fun h => ?_⟩
  · have hfill := ((h.fits settled_bareOs).2 rfl).1
    simp at hfill
  · have hfind := (h.fits settled_bareOs).1.2.2.1
    omega
  · have hopen := ((h.fits settled_bareOs).2 rfl).2.2.1.1
    exact absurd hopen (by decide)

end Agilefs
