import Agilefs.FreeList
import Agilefs.Posix

/-!
# The free-chunk list on disk

`flush_free_chunk` writes the two counters of a list and its pages to a file, and
`init_free_chunk` reads them back. `flush` rounds `totalCnt` to the end of the page that
holds `current`, so the list that comes back may have fewer pages than the one that went
out. Its entries in use are the same (`initFreeChunk_spec`), and that is all its
operations depend on : `results_eq` gives their return values as a function of the stack.
-/

namespace Agilefs

open CInt Posix Function ByteFile

/-! ## Bytes -/

/-- The `PER_LIST_SIZE` words of a page. -/
def Page.bytes (p : Page) : List UInt8 :=
  (List.finRange 1024).flatMap fun j => leBytes 4 (p j).toNat

/-- The page with the bytes `l`. -/
def Page.ofBytes (l : List UInt8) : Page :=
  fun j => UInt32.ofNat (ofLe ((l.drop (4 * j)).take 4))

namespace FreeChunkList

/-- The two counters at the front of the structure. -/
def header (f : FreeChunkList) : List UInt8 :=
  leBytes 4 (uint32 f.totalCnt).toNat ++ leBytes 4 (uint32 f.current).toNat

/-- The counters after reading `d` into the front of the structure. -/
def readHeader (f : FreeChunkList) (d : List UInt8) : FreeChunkList :=
  let l := overlay f.header d
  { f with totalCnt := int32 (ofLe (l.take 4)), current := int32 (ofLe ((l.drop 4).take 4)) }

/-! ## The two functions -/

variable {P : Type*}

/-- The loop of `flush_free_chunk` from page `i` on : write the page and free it. `none` is an
access behind the page table. -/
def flushPages (fd : ℤ) : ℕ → ℕ → ℤ → Os P × FreeChunkList → Option (Os P × FreeChunkList)
  | 0, _, _, _ => none
  | fuel + 1, i, total, (os, f) =>
    if total = 0 then some (os, f)
    else if h : i < 1024 then
      let os := match f.base ⟨i, h⟩ with
        | some p => os.write fd p.bytes
        | none => os
      let f := { f with base := update f.base ⟨i, h⟩ none }
      flushPages fd fuel (i + 1) (total - 1024) (os, f)
    else none

/-- `flush_free_chunk`, with its open granted. -/
def flushFreeChunk [DecidableEq P] (os : Os P) (f : FreeChunkList) (path : P) :
    Option (Os P × FreeChunkList × ℤ) :=
  let (os, fd) := os.openTrunc true path
  if fd = -1 then some (os, f, -1)
  else
    -- `current & ~(PER_LIST_SIZE - 1)` and one page more
    let total := f.current / 1024 * 1024 + 1024
    let f := { f with totalCnt := total }
    let os := os.write fd f.header
    (flushPages fd 1025 0 total (os, f)).map fun (os, f) => (os.close fd, f, 0)

/-- The loop of `init_free_chunk` from page `i` on. `malloc i` is what the new page holds. -/
def readPages (fd : ℤ) (malloc : ℕ → Page) :
    ℕ → ℕ → ℤ → Os P × FreeChunkList → Option (Os P × FreeChunkList)
  | 0, _, _, _ => none
  | fuel + 1, i, total, (os, f) =>
    if total = 0 then some (os, f)
    else if h : i < 1024 then
      let (os, d) := os.read fd 4096
      let p := Page.ofBytes (overlay (malloc i).bytes d)
      let f := { f with base := update f.base ⟨i, h⟩ (some p) }
      readPages fd malloc fuel (i + 1) (total - 1024) (os, f)
    else none

/-- `init_free_chunk`, with every `malloc` succeeding. `granted` says whether its open is. -/
def initFreeChunkIf (granted : Bool) (os : Os P) (malloc : ℕ → Page) (path : P) :
    Option (Os P × FreeChunkList × ℤ) :=
  let f := empty
  if os.access path then
    let (os, fd) := os.openRead granted path
    if fd = -1 then some (os, f, -1)
    else
      let (os, d) := os.read fd 8
      let f := f.readHeader d
      (readPages fd malloc 1025 0 f.totalCnt (os, f)).map fun (os, f) => (os.close fd, f, 0)
  else some (os, f, 0)

/-- `init_free_chunk`, with its open granted. -/
def initFreeChunk (os : Os P) (malloc : ℕ → Page) (path : P) :
    Option (Os P × FreeChunkList × ℤ) :=
  initFreeChunkIf true os malloc path

end FreeChunkList

/-! ## The bytes come back -/

@[simp] theorem Page.length_bytes (p : Page) : p.bytes.length = 4096 := by
  rw [Page.bytes, List.length_flatMap, List.map_congr_left fun j _ => length_leBytes 4 _]
  rw [List.map_const', List.sum_replicate_nat, List.length_finRange]

theorem Page.ofBytes_bytes (p : Page) : Page.ofBytes p.bytes = p := by
  funext j
  have hget : (List.finRange 1024)[(j : ℕ)]? = some j := by simp
  have hread := pread_flatMap (fun j => length_leBytes 4 (p j).toNat) hget
  simp only [pread] at hread
  have hlt : (p j).toNat < 256 ^ 4 := (p j).toNat_lt
  rw [Page.ofBytes, Page.bytes, hread, ofLe_leBytes, Nat.mod_eq_of_lt hlt, UInt32.ofNat_toNat]

namespace FreeChunkList

@[simp] theorem length_header (f : FreeChunkList) : f.header.length = 8 := by
  simp [header]

/-- The bytes of page `i`, none if it is not allocated. -/
def pageBytes (f : FreeChunkList) (i : ℕ) : List UInt8 :=
  if h : i < 1024 then (f.base ⟨i, h⟩).elim [] Page.bytes else []

/-- What the file of a list holds : the counters and the first `n` pages. -/
def image (f : FreeChunkList) (n : ℕ) : List UInt8 :=
  f.header ++ (List.range' 0 n).flatMap f.pageBytes

theorem pageBytes_some {f : FreeChunkList} {i : ℕ} {h : i < 1024} {p : Page}
    (hp : f.base ⟨i, h⟩ = some p) : f.pageBytes i = p.bytes := by
  simp [pageBytes, h, hp]

theorem readHeader_header {f g : FreeChunkList} (h₁ : -2 ^ 31 ≤ f.totalCnt)
    (h₂ : f.totalCnt < 2 ^ 31) (h₃ : -2 ^ 31 ≤ f.current) (h₄ : f.current < 2 ^ 31) :
    g.readHeader f.header = { g with totalCnt := f.totalCnt, current := f.current } := by
  have hword : ∀ {x : ℤ}, -2 ^ 31 ≤ x → x < 2 ^ 31 →
      int32 (ofLe (leBytes 4 (uint32 x).toNat) : ℕ) = x := by
    intro x hx hx'
    rw [ofLe_leBytes]
    simp only [int32, uint32, Int.bmod]
    omega
  have hover : overlay g.header f.header = f.header := overlay_of_length_le (by simp)
  have htake : f.header.take 4 = leBytes 4 (uint32 f.totalCnt).toNat := by simp [header]
  have hdrop : (f.header.drop 4).take 4 = leBytes 4 (uint32 f.current).toNat := by
    rw [header, List.drop_left' (length_leBytes _ _), List.take_of_length_le (by simp)]
  simp only [readHeader, hover, htake, hdrop, hword h₁ h₂, hword h₃ h₄]

variable {P : Type*} {paths : List P} {p : P} {fd : ℤ}

/-- The loop writes the pages one after the other. -/
theorem flushPages_spec (f₀ : FreeChunkList) : ∀ (k fuel i : ℕ) {os : Os P} {f : FreeChunkList}
    {c : ByteFile}, k < fuel → i + k ≤ 1024 → (∀ j : Fin 1024, i ≤ j → f.base j = f₀.base j) →
    os.Writing paths p fd c →
    ∃ os' f', flushPages fd fuel i (1024 * k) (os, f) = some (os', f') ∧
      os'.Writing paths p fd (c ++ (List.range' i k).flatMap f₀.pageBytes) ∧
      ∀ q ∈ paths, q ≠ p → os'.fileAt q = os.fileAt q
  | 0, fuel + 1, i, os, f, c, _, _, _, hw => by
    exact ⟨os, f, by simp [flushPages], by simpa using hw, fun _ _ _ => rfl⟩
  | k + 1, fuel + 1, i, os, f, c, hfuel, hik, hbase, hw => by
    have hi : i < 1024 := by omega
    have htotal : ((1024 : ℤ) * ((k + 1 : ℕ) : ℤ)) ≠ 0 := by omega
    have hrest : (1024 : ℤ) * ((k + 1 : ℕ) : ℤ) - 1024 = 1024 * (k : ℤ) := by omega
    -- one page
    obtain ⟨os₁, hos₁, hw₁, hframe₁⟩ : ∃ os₁, (match f.base ⟨i, hi⟩ with
        | some p => os.write fd p.bytes
        | none => os) = os₁ ∧ os₁.Writing paths p fd (c ++ f₀.pageBytes i) ∧
          ∀ q ∈ paths, q ≠ p → os₁.fileAt q = os.fileAt q := by
      rw [hbase ⟨i, hi⟩ le_rfl]
      cases hp : f₀.base ⟨i, hi⟩ with
      | none => exact ⟨os, rfl, by simpa [pageBytes, hi, hp] using hw, fun _ _ _ => rfl⟩
      | some page =>
        rw [pageBytes_some hp]
        exact ⟨_, rfl, hw.write page.bytes⟩
    obtain ⟨os', f', hrun, hw', hframe'⟩ := flushPages_spec f₀ k fuel (i + 1)
      (f := { f with base := update f.base ⟨i, hi⟩ none }) (by omega) (by omega)
      (fun j hj => by
        have hne : j ≠ ⟨i, hi⟩ := by
          rintro rfl
          simp at hj
        simp only [update_of_ne hne]
        exact hbase j (by omega)) hw₁
    refine ⟨os', f', ?_, ?_, fun q hq hqp => (hframe' q hq hqp).trans (hframe₁ q hq hqp)⟩
    · rw [flushPages, if_neg htotal, dif_pos hi]
      simp only [hos₁, hrest]
      exact hrun
    · simpa [List.range'_succ] using hw'

/-- The loop reads pages back that were written one after the other. -/
theorem readPages_spec (f₀ : FreeChunkList) (malloc : ℕ → Page) {os₀ : Os P} {n : ℕ}
    (hfd₀ : os₀.nextFd ≤ fd) : ∀ (k fuel i : ℕ) {os : Os P} {f : FreeChunkList} {a : ByteFile},
    k < fuel → i + k ≤ 1024 → (∀ j : Fin 1024, i ≤ j → j < i + k → (f₀.base j).isSome) →
    os₀.Opens os → os.fds fd = some ⟨n, a.length⟩ →
    os.inodes n = a ++ (List.range' i k).flatMap f₀.pageBytes →
    ∃ os' f', readPages fd malloc fuel i (1024 * k) (os, f) = some (os', f') ∧ os₀.Opens os' ∧
      f'.totalCnt = f.totalCnt ∧ f'.current = f.current ∧
      ∀ j : Fin 1024, f'.base j = if i ≤ j ∧ j < i + k then f₀.base j else f.base j
  | 0, fuel + 1, i, os, f, a, _, _, _, ho, _, _ => by
    refine ⟨os, f, by simp [readPages], ho, rfl, rfl, fun j => ?_⟩
    rw [if_neg (by omega)]
  | k + 1, fuel + 1, i, os, f, a, hfuel, hik, hpages, ho, hfd, hc => by
    have hi : i < 1024 := by omega
    have htotal : ((1024 : ℤ) * ((k + 1 : ℕ) : ℤ)) ≠ 0 := by omega
    have hrest : (1024 : ℤ) * ((k + 1 : ℕ) : ℤ) - 1024 = 1024 * (k : ℤ) := by omega
    obtain ⟨page, hpage⟩ := Option.isSome_iff_exists.1 (hpages ⟨i, hi⟩ le_rfl (by simp))
    rw [List.range'_succ, List.flatMap_cons, pageBytes_some hpage, ← List.append_assoc] at hc
    obtain ⟨hd, hfd'⟩ := Os.read_spec hfd hc
    rw [Page.length_bytes] at hd hfd'
    have ho' := ho.read hfd₀ 4096
    have hcopy : Page.ofBytes (overlay (malloc i).bytes (os.read fd 4096).2) = page := by
      rw [hd, overlay_of_length_le (by simp), Page.ofBytes_bytes]
    obtain ⟨os', f', hrun, ho'', htot, hcur, hbase⟩ := readPages_spec f₀ malloc hfd₀ k
      fuel (i + 1) (f := { f with base := update f.base ⟨i, hi⟩ (some page) })
      (by omega) (by omega) (fun j h₁ h₂ => hpages j (by omega) (by omega)) ho' hfd' (by
        rw [ho'.inodes, ← ho.inodes]
        exact hc)
    refine ⟨os', f', ?_, ho'', htot, hcur, fun j => ?_⟩
    · rw [readPages, if_neg htotal, dif_pos hi]
      simp only [hcopy, hrest]
      exact hrun
    · rw [hbase j]
      by_cases hj : j = ⟨i, hi⟩
      · subst hj
        simp [hpage]
      · have hne : (j : ℕ) ≠ i := fun h => hj (Fin.ext h)
        simp only [update_of_ne hj]
        split_ifs <;> first | rfl | omega

/-- The last page in use, one past it. -/
def usedPages (f : FreeChunkList) : ℕ := (f.current / 1024 + 1).toNat

theorem Ok.usedPages_eq {f : FreeChunkList} (h : f.Ok) :
    f.current / 1024 * 1024 + 1024 = 1024 * (f.usedPages : ℤ) ∧ f.usedPages ≤ 1024 := by
  have := h.le_current
  have := h.current_lt
  have := h.total_le
  unfold usedPages
  omega

/-- The list as `flush_free_chunk` writes it : with the pages in use only. -/
def trim (f : FreeChunkList) : FreeChunkList :=
  { f with totalCnt := 1024 * (f.usedPages : ℤ) }

theorem Ok.trim {f : FreeChunkList} (h : f.Ok) : f.trim.Ok ∧ f.trim.stack = f.stack := by
  obtain ⟨-, hle⟩ := h.usedPages_eq
  have h₁ := h.le_current
  have h₂ := h.current_lt
  have h₃ := h.total_mod
  refine ⟨⟨?_, ?_, h₁, ?_, fun q hq => h.pages q ?_⟩, rfl⟩
  · simp [FreeChunkList.trim]
  · simp only [FreeChunkList.trim]
    omega
  · simp only [FreeChunkList.trim, usedPages]
    omega
  · simp only [FreeChunkList.trim, usedPages] at hq
    omega

/-- `flush_free_chunk` writes the pages in use to the file. -/
theorem flushFreeChunk_spec [DecidableEq P] {os : Os P} (hs : os.Sited paths) (hp : p ∈ paths)
    {f : FreeChunkList} (hf : f.Ok) :
    ∃ os' f' n, flushFreeChunk os f p = some (os', f', 0) ∧ os'.Sited paths ∧
      os'.fileAt p = some (n, f.trim.image f.usedPages) ∧
      ∀ q ∈ paths, q ≠ p → os'.fileAt q = os.fileAt q := by
  obtain ⟨os₁, fd, hopen, hfd, hw, hframe₁⟩ := hs.openTrunc hp
  obtain ⟨htotal, hle⟩ := hf.usedPages_eq
  have hne : fd ≠ -1 := by omega
  obtain ⟨hw₂, hframe₂⟩ := hw.write f.trim.header
  obtain ⟨os₃, f', hrun, hw₃, hframe₃⟩ := flushPages_spec f.trim f.usedPages 1025 0
    (f := f.trim) (by omega) (by omega) (fun _ _ => rfl) hw₂
  obtain ⟨n, -, hat⟩ := hw₃.opened
  refine ⟨os₃.close fd, f', n, ?_, hw₃.sited.close fd, ?_, fun q hq hqp => ?_⟩
  · simp only [flushFreeChunk, hopen, if_neg hne, htotal]
    simp only [trim] at hrun
    rw [hrun]
    rfl
  · rw [Os.fileAt_close, image]
    simpa using hat
  · rw [Os.fileAt_close]
    exact (hframe₃ q hq hqp).trans ((hframe₂ q hq hqp).trans (hframe₁ q hq hqp))

/-- `init_free_chunk` once the file is open and its header read. -/
theorem initFreeChunk_eq {os os₁ os₂ : Os P} {fd : ℤ} {d : List UInt8} {f : FreeChunkList}
    (hacc : os.access p) (hopen : os.openRead true p = (os₁, fd)) (hfd : 0 ≤ fd)
    (hread : os₁.read fd 8 = (os₂, d)) (hhead : empty.readHeader d = f) (malloc : ℕ → Page) :
    initFreeChunk os malloc p = (readPages fd malloc 1025 0 f.totalCnt (os₂, f)).map
      fun r => (r.1.close fd, r.2, 0) := by
  simp only [initFreeChunk, initFreeChunkIf, hacc, if_true, hopen, if_neg (by omega : fd ≠ -1),
    hread, hhead]

/-- `init_free_chunk` builds a list with the entries of the one written. -/
theorem initFreeChunk_spec {os : Os P} (hs : os.Sane) {f : FreeChunkList} (hf : f.Ok)
    {n : ℕ} (hat : os.fileAt p = some (n, f.trim.image f.usedPages)) (malloc : ℕ → Page) :
    ∃ os' g, initFreeChunk os malloc p = some (os', g, 0) ∧ os.Opens os' ∧ g.Ok ∧
      g.stack = f.stack := by
  obtain ⟨hlk, hc⟩ := Os.fileAt_eq_some.1 hat
  obtain ⟨-, hle⟩ := hf.usedPages_eq
  obtain ⟨hok, hst⟩ := hf.trim
  have h₁ := hok.le_current
  have h₂ := hok.current_lt
  have h₃ := hok.total_le
  have hacc : os.access p = true := by
    simp [Os.access, Os.lookup_eq_some.1 hlk]
  have hopen : os.openRead true p = ((os.attach n).1, (os.nextFd : ℤ)) :=
    Os.openRead_file hlk
  -- the header
  have ho₁ : os.Opens (os.attach n).1 := hs.opens.attach n
  have hfd₁ : (os.attach n).1.fds os.nextFd = some ⟨n, ([] : List UInt8).length⟩ := by
    simp [Os.attach]
  have hc₁ : (os.attach n).1.inodes n = [] ++ f.trim.header ++
      (List.range' 0 f.usedPages).flatMap f.trim.pageBytes := hc
  obtain ⟨hd, hfd₂⟩ := Os.read_spec hfd₁ hc₁
  rw [length_header] at hd hfd₂
  have ho₂ := ho₁.read le_rfl 8
  set g₀ : FreeChunkList := ⟨f.trim.totalCnt, f.trim.current, empty.base⟩
  have hhead : empty.readHeader f.trim.header = g₀ :=
    readHeader_header (by omega) (by omega) (by omega) (by omega)
  have hread : (os.attach n).1.read os.nextFd 8 =
      (((os.attach n).1.read os.nextFd 8).1, f.trim.header) := Prod.ext rfl hd
  -- the pages
  obtain ⟨os', g, hrun, ho', htot, hcur, hbase⟩ := readPages_spec f.trim malloc
    le_rfl f.usedPages 1025 0 (f := g₀)
    (by omega) (by omega)
    (fun j _ hj => hok.pages j (by simp only [trim]; omega)) ho₂ hfd₂ (by
      rw [ho₂.inodes, ← ho₁.inodes]
      exact hc₁)
  have hbase' : ∀ j : Fin 1024, (j : ℤ) * 1024 < f.trim.totalCnt → g.base j = f.trim.base j := by
    intro j hj
    rw [hbase j, if_pos]
    simp only [trim] at hj
    omega
  refine ⟨os'.close os.nextFd, g, ?_, ho'.close le_rfl, ?_, ?_⟩
  · rw [initFreeChunk_eq hacc hopen (by omega) hread hhead]
    exact congrArg (Option.map _) hrun
  · refine ⟨?_, ?_, ?_, ?_, fun q hq => ?_⟩
    · rw [htot]
      exact hok.total_mod
    · rw [htot]
      exact hok.total_le
    · rw [hcur]
      exact h₁
    · rw [hcur, htot]
      exact h₂
    · rw [htot] at hq
      rw [hbase' q hq]
      exact hok.pages q hq
  · have hcur' : g.current = f.trim.current := hcur
    rw [← hst, stack, stack, hcur']
    refine congrArg List.reverse (List.map_congr_left fun i hi => ?_)
    rw [List.mem_range] at hi
    have hidx : pageIndex i = some ⟨((i : ℤ) / 1024).toNat, by omega⟩ :=
      pageIndex_eq (by omega) (by omega)
    rw [entry, entry, freeList, freeList, hidx]
    simp only [Option.bind_some]
    rw [hbase' _ (by simp; omega)]

/-! ## Observations -/

/-- A call on the list. -/
inductive ListOp where
  | get
  | add (offset : ℤ)

/-- The values the calls return; `malloc i` is the page a `malloc` in the `i`-th call returns. -/
def results (f : FreeChunkList) (malloc : ℕ → Page) : List ListOp → Option (List ℤ)
  | [] => some []
  | .get :: ops => f.getFirstFreeChunk.bind fun r =>
      (results r.1 (fun i => malloc (i + 1)) ops).map (r.2 :: ·)
  | .add offset :: ops => (f.addFreeChunk offset (some (malloc 0))).bind fun r =>
      (results r.1 (fun i => malloc (i + 1)) ops).map (r.2 :: ·)

/-- The values the calls return on a stack. -/
def stackResults : List UInt32 → List ListOp → List ℤ
  | _, [] => []
  | [], .get :: ops => -1 :: stackResults [] ops
  | e :: es, .get :: ops => int32 e.toNat :: stackResults es ops
  | es, .add offset :: ops => 0 :: stackResults (UInt32.ofInt offset :: es) ops

/-- From `n` entries on, the calls keep at most `2 ^ 20`. -/
def Fits : ℕ → List ListOp → Prop
  | _, [] => True
  | n, .get :: ops => Fits (n - 1) ops
  | n, .add _ :: ops => n < 2 ^ 20 ∧ Fits (n + 1) ops

/-- The list is a stack : its calls return what they return on the entries in use. -/
theorem results_eq {ops : List ListOp} {f : FreeChunkList} {malloc : ℕ → Page} (h : f.Ok)
    (hfit : Fits f.stack.length ops) :
    f.results malloc ops = some (stackResults f.stack ops) := by
  induction ops generalizing f malloc with
  | nil => rfl
  | cons op ops ih =>
    cases op with
    | get =>
      cases hs : f.stack with
      | nil =>
        rw [results, getFirstFreeChunk_nil h hs, Option.bind_some,
          ih h (by simpa [Fits, hs] using hfit), hs]
        rfl
      | cons e es =>
        obtain ⟨f', hget, hok, hst⟩ := getFirstFreeChunk_cons h hs
        rw [results, hget, Option.bind_some, ih hok (by simpa [Fits, hs, hst] using hfit), hst,
          stackResults, Option.map_some]
    | add offset =>
      obtain ⟨hlt, hrest⟩ := hfit
      obtain ⟨f', hadd, hok, hst⟩ := addFreeChunk_ok h hlt offset (malloc 0)
      rw [results, hadd, Option.bind_some, ih hok (by rw [hst]; exact hrest), hst]
      rfl

end FreeChunkList

end Agilefs
