import Agilefs.ChunkStore
import Agilefs.FreeListFile
import Agilefs.Runs

/-!
# Shutdown and restart

`release_chunk_file` closes the chunk files and flushes the free lists, `init_chunk_file`
opens and reads them again. Both walk the same configuration, which expat delivers as a
sequence of events; only the handler of start elements differs.

`restart_observes` : after a shutdown and a restart on one configuration each index has the
same chunk file, the same `cur_size` and a free list whose calls return what those of the
old list would have returned.
-/

namespace Agilefs

open Posix Function

variable {P : Type*}

/-! ## The configuration -/

/-- A start element, with the values of its attributes decoded. -/
inductive Element (P : Type*) where
  | total (count : ℤ)
  | file (path freeList : P)
  | other

/-- What expat calls back for. -/
inductive XmlEvent (P : Type*) where
  | start (e : Element P)
  | finish

/-- `struct chunk_file_info_xml`. The arrays of `cfi` have `len` elements. -/
structure ChunkFileInfoXml where
  cfi : ChunkFileInfo
  i : ℕ
  depth : ℤ
  len : ℕ

/-- What fresh memory holds : the pages of the free list of each file, and the `stat` buffer. -/
structure InitEnv where
  malloc : ℕ → ℕ → Page
  statbuf : ℕ → ℕ

/-- Which opens of the chunk files and the free lists are granted. -/
structure InitOpens where
  file : ℕ → Bool
  list : ℕ → Bool

/-- All of them. -/
def InitOpens.granted : InitOpens := ⟨fun _ => true, fun _ => true⟩

/-- Element `i` of each array. -/
def ChunkFileInfo.setFile (cfi : ChunkFileInfo) (i : ℕ) (fd : ℤ) (size : ℕ)
    (fcl : FreeChunkList) : ChunkFileInfo :=
  { cfi with fds := update cfi.fds i fd, curSize := update cfi.curSize i size,
             fcls := update cfi.fcls i fcl }

section SetFile

variable (cfi : ChunkFileInfo) (i j : ℕ) (fd : ℤ) (size : ℕ) (fcl : FreeChunkList)

@[simp] theorem ChunkFileInfo.setFile_fds :
    (cfi.setFile i fd size fcl).fds j = if j = i then fd else cfi.fds j :=
  update_apply _ _ _ _

@[simp] theorem ChunkFileInfo.setFile_curSize :
    (cfi.setFile i fd size fcl).curSize j = if j = i then size else cfi.curSize j :=
  update_apply _ _ _ _

@[simp] theorem ChunkFileInfo.setFile_fcls :
    (cfi.setFile i fd size fcl).fcls j = if j = i then fcl else cfi.fcls j :=
  update_apply _ _ _ _

end SetFile

/-- `start_element_init`. `none` is an access behind the arrays. -/
def startElementInit [DecidableEq P] (opens : InitOpens) (env : InitEnv) (os : Os P)
    (x : ChunkFileInfoXml) : Element P → Option (Os P × ChunkFileInfoXml)
  | .total count =>
    some (os, { x with cfi := { x.cfi with total := count }, len := count.toNat,
                       depth := x.depth + 1 })
  | .file path freeList =>
    if x.i < x.len then
      let (os, fd) := os.openCreat (opens.file x.i) path
      let size := ((os.ino fd).map fun n => (os.inodes n).length).getD (env.statbuf x.i)
      -- the result of `init_free_chunk` is not looked at
      (FreeChunkList.initFreeChunkIf (opens.list x.i) os (env.malloc x.i) freeList).map
        fun (os, fcl, _) =>
          (os, { x with cfi := x.cfi.setFile x.i fd size fcl, i := x.i + 1,
                        depth := x.depth + 1 })
    else none
  | .other => some (os, { x with depth := x.depth + 1 })

/-- `start_element_release`. -/
def startElementRelease [DecidableEq P] (os : Os P) (x : ChunkFileInfoXml) :
    Element P → Option (Os P × ChunkFileInfoXml)
  | .file _ freeList =>
    if x.i < x.len then
      let os := os.close (x.cfi.fds x.i)
      (FreeChunkList.flushFreeChunk os (x.cfi.fcls x.i) freeList).map fun (os, fcl, _) =>
        (os, { x with cfi := x.cfi.setFcl x.i fcl, i := x.i + 1, depth := x.depth + 1 })
    else none
  | _ => some (os, { x with depth := x.depth + 1 })

/-- `end_element`. -/
def endElement (x : ChunkFileInfoXml) : ChunkFileInfoXml :=
  { x with depth := x.depth - 1 }

/-- One event, given the handler of start elements. -/
def xmlStep (start : Os P → ChunkFileInfoXml → Element P → Option (Os P × ChunkFileInfoXml))
    (s : Os P × ChunkFileInfoXml) : XmlEvent P → Option (Os P × ChunkFileInfoXml)
  | .start e => start s.1 s.2 e
  | .finish => some (s.1, endElement s.2)

/-- `init_chunk_file` on a structure whose arrays hold anything, with its opens granted. -/
def initChunkFile [DecidableEq P] (env : InitEnv) (os : Os P) (base : ChunkFileInfo)
    (doc : List (XmlEvent P)) : Option (Os P × ChunkFileInfo) :=
  (Runs.exec (xmlStep (startElementInit .granted env)) (os, ⟨base, 0, 0, 0⟩) doc).map
    fun s => (s.1, s.2.cfi)

/-- `release_chunk_file`; the arrays are freed. -/
def releaseChunkFile [DecidableEq P] (os : Os P) (base : ChunkFileInfo)
    (doc : List (XmlEvent P)) : Option (Os P) :=
  (Runs.exec (xmlStep startElementRelease) (os, ⟨base, 0, 0, base.files⟩) doc).map Prod.fst

/-! ## The files of a configuration -/

/-- The `file` elements in document order : each chunk file with its free list. -/
def files : List (XmlEvent P) → List (P × P)
  | [] => []
  | .start (.file path freeList) :: doc => (path, freeList) :: files doc
  | _ :: doc => files doc

/-- No `total` element. -/
def NoTotal : List (XmlEvent P) → Prop
  | [] => True
  | .start (.total _) :: _ => False
  | _ :: doc => NoTotal doc

/-- One `total` element, which comes before the `file` elements and is their number. -/
def TotalFirst : List (XmlEvent P) → Prop
  | [] => False
  | .start (.total count) :: doc => count = (files doc).length ∧ NoTotal doc
  | .start (.file _ _) :: _ => False
  | .start .other :: doc => TotalFirst doc
  | .finish :: doc => TotalFirst doc

/-- Every path named in the configuration. -/
def paths (doc : List (XmlEvent P)) : List P :=
  (files doc).flatMap fun f => [f.1, f.2]

/-- The file at `q` holds the list `f`. -/
def Saved (os : Os P) (f : FreeChunkList) (q : P) : Prop :=
  ∃ n, os.fileAt q = some (n, f.trim.image f.usedPages)

/-! ## Shutdown -/

section Release

variable [DecidableEq P]

/-- The rest of a shutdown saves the free lists that are left, and no other file changes. -/
theorem release_spec {ps : List P} : ∀ (doc : List (XmlEvent P)) {os : Os P}
    {x : ChunkFileInfoXml}, os.Sited ps → (∀ f ∈ files doc, f.2 ∈ ps) →
    ((files doc).map Prod.snd).Nodup → x.i + (files doc).length ≤ x.len →
    (∀ j < (files doc).length, (x.cfi.fcls (x.i + j)).Ok) →
    ∃ os' x', Runs.exec (xmlStep startElementRelease) (os, x) doc = some (os', x') ∧
      os'.Sited ps ∧
      (∀ j f, (files doc)[j]? = some f → Saved os' (x.cfi.fcls (x.i + j)) f.2) ∧
      ∀ r ∈ ps, r ∉ (files doc).map Prod.snd → os'.fileAt r = os.fileAt r
  | [], os, x, hs, _, _, _, _ => ⟨os, x, rfl, hs, by simp [files], fun _ _ _ => rfl⟩
  | .finish :: doc, os, x, hs, hmem, hnd, hlen, hok =>
    release_spec doc (x := endElement x) hs hmem hnd hlen hok
  | .start (.total _) :: doc, os, x, hs, hmem, hnd, hlen, hok =>
    release_spec doc (x := { x with depth := x.depth + 1 }) hs hmem hnd hlen hok
  | .start .other :: doc, os, x, hs, hmem, hnd, hlen, hok =>
    release_spec doc (x := { x with depth := x.depth + 1 }) hs hmem hnd hlen hok
  | .start (.file p q) :: doc, os, x, hs, hmem, hnd, hlen, hok => by
    simp only [files, List.map_cons, List.nodup_cons, List.length_cons, List.mem_cons] at *
    have hq : q ∈ ps := hmem (p, q) (Or.inl rfl)
    obtain ⟨os₁, f₁, n, hflush, hs₁, hat₁, hframe₁⟩ :=
      FreeChunkList.flushFreeChunk_spec (hs.close (x.cfi.fds x.i)) hq (hok 0 (by omega))
    set x₁ : ChunkFileInfoXml :=
      { x with cfi := x.cfi.setFcl x.i f₁, i := x.i + 1, depth := x.depth + 1 } with hx₁
    have hfcls : ∀ j, x₁.cfi.fcls (x₁.i + j) = x.cfi.fcls (x.i + (j + 1)) := by
      intro j
      simp only [hx₁, ChunkFileInfo.setFcl_fcls, if_neg (by omega : x.i + 1 + j ≠ x.i)]
      exact congrArg _ (by omega)
    obtain ⟨os', x', hrun, hs', hsaved, hframe⟩ := release_spec doc (x := x₁) hs₁
      (fun f hf => hmem f (Or.inr hf)) hnd.2 (by simp only [hx₁]; omega)
      (fun j hj => by rw [hfcls]; exact hok (j + 1) (by omega))
    refine ⟨os', x', ?_, hs', fun j f hf => ?_, fun r hr hrq => ?_⟩
    · have hlt : x.i < x.len := by omega
      simp only [add_zero] at hflush
      rw [Runs.exec, xmlStep, startElementRelease, if_pos hlt]
      simp only [hflush, Option.map_some, Option.bind_some]
      exact hrun
    · cases j with
      | zero =>
        obtain rfl : (p, q) = f := by simpa using hf
        exact ⟨n, (hframe q hq hnd.1).trans hat₁⟩
      | succ j =>
        rw [← hfcls]
        exact hsaved j f (by simpa using hf)
    · simp only [not_or] at hrq
      rw [hframe r hr hrq.2, hframe₁ r hr hrq.1, Os.fileAt_close]

end Release

/-! ## Restart -/

section Init

variable [DecidableEq P]

/-- Index `i` of the arrays is the chunk file at `p` with a list of the entries of `f`. -/
structure Restored (os : Os P) (cfi : ChunkFileInfo) (i : ℕ) (p : P) (f : FreeChunkList) :
    Prop where
  ino : ∃ n, os.ino (cfi.fds i) = some n ∧ os.lookup p = some n ∧
    cfi.curSize i = (os.inodes n).length
  ok : (cfi.fcls i).Ok
  stack : (cfi.fcls i).stack = f.stack

omit [DecidableEq P] in
theorem Restored.of_opens {os os' : Os P} {cfi cfi' : ChunkFileInfo} {i : ℕ} {p : P}
    {f : FreeChunkList} (h : Restored os cfi i p f) (ho : os.Opens os') (hs : os.Sane)
    (hfds : cfi'.fds i = cfi.fds i) (hsize : cfi'.curSize i = cfi.curSize i)
    (hfcls : cfi'.fcls i = cfi.fcls i) : Restored os' cfi' i p f := by
  obtain ⟨n, hn, hlk, hlen⟩ := h.ino
  obtain ⟨o, ho', -⟩ := Option.map_eq_some_iff.1 hn
  refine ⟨⟨n, ?_, by rw [ho.lookup, hlk], by rw [hsize, hlen, ho.inodes]⟩, hfcls ▸ h.ok,
    hfcls ▸ h.stack⟩
  rw [hfds, Os.ino, ho.fds _ (hs.opened _ o ho'), ← Os.ino, hn]

/-- One `file` element. -/
theorem startElementInit_file (env : InitEnv) {os : Os P} (hs : os.Sane) {x : ChunkFileInfoXml}
    (hlt : x.i < x.len) {p q : P} {n : ℕ} (hp : os.lookup p = some n) {f : FreeChunkList}
    (hf : f.Ok) (hq : Saved os f q) :
    ∃ os' fd size fcl, startElementInit .granted env os x (.file p q) =
        some (os', { x with cfi := x.cfi.setFile x.i fd size fcl, i := x.i + 1,
                            depth := x.depth + 1 }) ∧
      os.Opens os' ∧ Restored os' (x.cfi.setFile x.i fd size fcl) x.i p f := by
  obtain ⟨m, hat⟩ := hq
  have ho : os.Opens (os.attach n).1 := hs.opens.attach n
  have hs₁ : (os.attach n).1.Sane := ⟨hs.named, ho.opened⟩
  obtain ⟨os', fcl, hinit, ho', hok, hst⟩ :=
    FreeChunkList.initFreeChunk_spec hs₁ hf ((ho.fileAt q).trans hat) (env.malloc x.i)
  have hopen : os.openCreat true p = ((os.attach n).1, (os.nextFd : ℤ)) := by
    simp [Os.openCreat, hp, Os.attach]
  have hino : (os.attach n).1.ino os.nextFd = some n := by simp [Os.ino, Os.attach]
  refine ⟨os', os.nextFd, (os.inodes n).length, fcl, ?_, ho.trans ho',
    ⟨⟨n, ?_, ?_, ?_⟩, by simpa using hok, by simpa using hst⟩⟩
  · rw [FreeChunkList.initFreeChunk] at hinit
    simp only [startElementInit, if_pos hlt, InitOpens.granted, hopen, hino, hinit,
      Option.map_some, Option.getD_some, ho.inodes]
  · have hnext : (os.nextFd : ℤ) < ((os.attach n).1.nextFd : ℤ) := by
      simp only [Os.attach]
      omega
    rw [ChunkFileInfo.setFile_fds, if_pos rfl, Os.ino, ho'.fds _ hnext, ← Os.ino, hino]
  · rw [(ho.trans ho').lookup, hp]
  · rw [ChunkFileInfo.setFile_curSize, if_pos rfl, (ho.trans ho').inodes]

/-- The rest of a restart. -/
theorem initFiles_spec (env : InitEnv) (fcl : ℕ → FreeChunkList) :
    ∀ (doc : List (XmlEvent P)) {os : Os P} {x : ChunkFileInfoXml}, os.Sane → NoTotal doc →
    x.i + (files doc).length ≤ x.len →
    (∀ j f, (files doc)[j]? = some f →
      (∃ n, os.lookup f.1 = some n) ∧ (fcl (x.i + j)).Ok ∧ Saved os (fcl (x.i + j)) f.2) →
    ∃ os' x', Runs.exec (xmlStep (startElementInit .granted env)) (os, x) doc = some (os', x') ∧
      os.Opens os' ∧ x'.cfi.total = x.cfi.total ∧
      (∀ j < x.i, x'.cfi.fds j = x.cfi.fds j ∧ x'.cfi.curSize j = x.cfi.curSize j ∧
        x'.cfi.fcls j = x.cfi.fcls j) ∧
      ∀ j f, (files doc)[j]? = some f → Restored os' x'.cfi (x.i + j) f.1 (fcl (x.i + j))
  | [], os, x, hs, _, _, _ =>
    ⟨os, x, rfl, hs.opens, rfl, fun _ _ => ⟨rfl, rfl, rfl⟩, by simp [files]⟩
  | .finish :: doc, os, x, hs, htot, hlen, hfiles =>
    initFiles_spec env fcl doc (x := endElement x) hs htot hlen hfiles
  | .start (.total _) :: doc, os, x, hs, htot, hlen, hfiles => htot.elim
  | .start .other :: doc, os, x, hs, htot, hlen, hfiles =>
    initFiles_spec env fcl doc (x := { x with depth := x.depth + 1 }) hs htot hlen hfiles
  | .start (.file p q) :: doc, os, x, hs, htot, hlen, hfiles => by
    simp only [files, List.length_cons] at *
    obtain ⟨⟨n, hp⟩, hok, hq⟩ := hfiles 0 (p, q) rfl
    obtain ⟨os₁, fd, size, g, hstep, ho₁, hrest₁⟩ :=
      startElementInit_file env hs (by omega : x.i < x.len) hp hok hq
    have hs₁ : os₁.Sane := ⟨by rw [ho₁.names, ho₁.nextIno]; exact hs.named, ho₁.opened⟩
    set x₁ : ChunkFileInfoXml := { x with cfi := x.cfi.setFile x.i fd size g, i := x.i + 1,
                                          depth := x.depth + 1 } with hx₁
    have hidx : ∀ j, x₁.i + j = x.i + (j + 1) := fun j => by simp only [hx₁]; omega
    obtain ⟨os', x', hrun, ho', htot', hsame, hall⟩ :=
      initFiles_spec env fcl doc (x := x₁) hs₁ htot
        (by simp only [hx₁]; omega) (fun j f hf => by
          obtain ⟨⟨m, hm⟩, hok, k, hk⟩ := hfiles (j + 1) f hf
          rw [hidx]
          exact ⟨⟨m, by rw [ho₁.lookup, hm]⟩, hok, k, by rw [ho₁.fileAt, hk]⟩)
    refine ⟨os', x', ?_, ho₁.trans ho', htot', fun j hj => ?_, fun j f hf => ?_⟩
    · rw [Runs.exec, xmlStep, hstep, Option.bind_some]
      exact hrun
    · obtain ⟨h₁, h₂, h₃⟩ := hsame j (by simp only [hx₁]; omega)
      rw [h₁, h₂, h₃]
      have hne : j ≠ x.i := by omega
      simp [hx₁, hne]
    · cases j with
      | zero =>
        obtain rfl : (p, q) = f := by simpa using hf
        obtain ⟨h₁, h₂, h₃⟩ := hsame x.i (by simp only [hx₁]; omega)
        exact hrest₁.of_opens ho' hs₁ h₁ h₂ h₃
      | succ j =>
        rw [← hidx]
        exact hall j f (by simpa using hf)

/-- A restart sets `total` and restores every index. -/
theorem initChunkFile_spec (env : InitEnv) (fcl : ℕ → FreeChunkList) {os : Os P} (hs : os.Sane)
    {doc : List (XmlEvent P)} (hdoc : TotalFirst doc)
    (hfiles : ∀ j f, (files doc)[j]? = some f →
      (∃ n, os.lookup f.1 = some n) ∧ (fcl j).Ok ∧ Saved os (fcl j) f.2) (base : ChunkFileInfo) :
    ∃ os' cfi, initChunkFile env os base doc = some (os', cfi) ∧ os.Opens os' ∧
      cfi.total = (files doc).length ∧
      ∀ j f, (files doc)[j]? = some f → Restored os' cfi j f.1 (fcl j) := by
  suffices h : ∀ {doc : List (XmlEvent P)} {x : ChunkFileInfoXml}, TotalFirst doc → x.i = 0 →
      (∀ j f, (files doc)[j]? = some f →
        (∃ n, os.lookup f.1 = some n) ∧ (fcl j).Ok ∧ Saved os (fcl j) f.2) →
      ∃ os' x', Runs.exec (xmlStep (startElementInit .granted env)) (os, x) doc = some (os', x') ∧
        os.Opens os' ∧ x'.cfi.total = (files doc).length ∧
        ∀ j f, (files doc)[j]? = some f → Restored os' x'.cfi j f.1 (fcl j) by
    obtain ⟨os', x', hrun, ho, htot, hall⟩ := h (x := ⟨base, 0, 0, 0⟩) hdoc rfl hfiles
    exact ⟨os', x'.cfi, by rw [initChunkFile, hrun]; rfl, ho, htot, hall⟩
  intro doc
  induction doc with
  | nil => exact fun h => h.elim
  | cons e doc ih =>
    intro x hdoc hx hfiles
    match e, hdoc with
    | .finish, hdoc => exact ih (x := endElement x) hdoc hx hfiles
    | .start .other, hdoc =>
      exact ih (x := { x with depth := x.depth + 1 }) hdoc hx hfiles
    | .start (.total count), hdoc =>
      obtain ⟨hcount, hno⟩ := hdoc
      set x₁ : ChunkFileInfoXml := { x with cfi := { x.cfi with total := count },
                                            len := count.toNat, depth := x.depth + 1 } with hx₁
      have hi : ∀ j, x₁.i + j = j := fun j => by simp [hx₁, hx]
      obtain ⟨os', x', hrun, ho, htot, -, hall⟩ := initFiles_spec env fcl doc (x := x₁)
        hs hno (by simp [hx₁, hx, hcount])
        (fun j f hf => by rw [hi]; exact hfiles j f hf)
      simp only [hi] at hall
      exact ⟨os', x', hrun, ho, htot.trans hcount, hall⟩

end Init

/-! ## Both -/

/-- Two lists whose calls return the same values, whatever their new pages hold. -/
def Observes (f g : FreeChunkList) : Prop :=
  ∀ ops, FreeChunkList.Fits f.stack.length ops → ∀ malloc malloc',
    ∃ rs, f.results malloc ops = some rs ∧ g.results malloc' ops = some rs

/-- The state of a server that runs on a configuration. -/
structure Running (os : Os P) (cfi : ChunkFileInfo) (doc : List (XmlEvent P)) : Prop where
  sited : os.Sited (paths doc)
  total : cfi.total = (files doc).length
  file : ∀ i f, (files doc)[i]? = some f →
    ∃ n, os.ino (cfi.fds i) = some n ∧ os.lookup f.1 = some n ∧
      cfi.curSize i = (os.inodes n).length
  lists : ∀ i < (files doc).length, (cfi.fcls i).Ok

/-- Pairwise distinct paths : no chunk file is a free list, and the free lists differ. -/
theorem paths_nodup {doc : List (XmlEvent P)} (h : (paths doc).Nodup) :
    ((files doc).map Prod.snd).Nodup ∧ ∀ f ∈ files doc, f.1 ∉ (files doc).map Prod.snd := by
  unfold paths at h
  generalize files doc = fs at h ⊢
  induction fs with
  | nil => simp
  | cons f fs ih =>
    simp only [List.flatMap_cons, List.cons_append, List.nil_append, List.nodup_cons,
      List.mem_cons, List.mem_flatMap, List.not_mem_nil, or_false, not_or, not_exists,
      not_and] at h
    obtain ⟨⟨hne, hfst⟩, hsnd, hfs⟩ := h
    obtain ⟨ih₁, ih₂⟩ := ih hfs
    refine ⟨?_, fun g hg => ?_⟩
    · rw [List.map_cons, List.nodup_cons]
      refine ⟨fun hmem => ?_, ih₁⟩
      obtain ⟨g, hg, heq⟩ := List.mem_map.1 hmem
      exact (hsnd g hg).2 heq.symm
    · rw [List.map_cons, List.mem_cons, not_or]
      rcases List.mem_cons.1 hg with rfl | hg
      · refine ⟨hne, fun hmem => ?_⟩
        obtain ⟨k, hk, heq⟩ := List.mem_map.1 hmem
        exact (hfst k hk).2 heq.symm
      · exact ⟨fun heq => (hsnd g hg).1 heq.symm, ih₂ g hg⟩

variable [DecidableEq P]

/-- After a shutdown and a restart each index has the chunk file it had, of the size it had,
and a free list that observes the same. -/
theorem restart_observes {os : Os P} {cfi : ChunkFileInfo} {doc : List (XmlEvent P)}
    (hdoc : TotalFirst doc) (hnd : (paths doc).Nodup) (h : Running os cfi doc) (env : InitEnv)
    (base : ChunkFileInfo) :
    ∃ os₁ os₂ cfi', releaseChunkFile os cfi doc = some os₁ ∧
      initChunkFile env os₁ base doc = some (os₂, cfi') ∧ cfi'.total = cfi.total ∧
      ∀ i < cfi.files, os₂.ino (cfi'.fds i) = os.ino (cfi.fds i) ∧
        os₂.content (cfi'.fds i) = os.content (cfi.fds i) ∧
        cfi'.curSize i = cfi.curSize i ∧ Observes (cfi.fcls i) (cfi'.fcls i) := by
  have hps : ∀ f ∈ files doc, f.1 ∈ paths doc ∧ f.2 ∈ paths doc := fun f hf =>
    ⟨List.mem_flatMap.2 ⟨f, hf, by simp⟩, List.mem_flatMap.2 ⟨f, hf, by simp⟩⟩
  have hlen : cfi.files = (files doc).length := by simp [ChunkFileInfo.files, h.total]
  obtain ⟨hsnd, hfst⟩ : ((files doc).map Prod.snd).Nodup ∧
      ∀ f ∈ files doc, f.1 ∉ (files doc).map Prod.snd := paths_nodup hnd
  -- shutdown
  obtain ⟨os₁, x₁, hrun₁, hs₁, hsaved, hframe⟩ := release_spec doc (x := ⟨cfi, 0, 0, cfi.files⟩)
    h.sited (fun f hf => (hps f hf).2) hsnd (by simp [hlen]) (by simpa using h.lists)
  simp only [zero_add] at hsaved
  have hsame : ∀ (i : ℕ) (f : P × P) (n : ℕ), (files doc)[i]? = some f → os.lookup f.1 = some n →
      os₁.lookup f.1 = some n ∧ os₁.inodes n = os.inodes n := by
    intro i f n hf hn
    have hf' := List.mem_of_getElem? hf
    exact Os.fileAt_eq_some.1 ((hframe f.1 (hps f hf').1 (hfst f hf')).trans
      (Os.fileAt_eq_some.2 ⟨hn, rfl⟩))
  -- restart
  obtain ⟨os₂, cfi', hrun₂, ho, htot, hall⟩ := initChunkFile_spec env cfi.fcls hs₁.sane
    hdoc (fun i f hf => by
      obtain ⟨n, -, hn, -⟩ := h.file i f hf
      obtain ⟨hlt, -⟩ := List.getElem?_eq_some_iff.1 hf
      exact ⟨⟨n, (hsame i f n hf hn).1⟩, h.lists i hlt, hsaved i f hf⟩) base
  refine ⟨os₁, os₂, cfi', by rw [releaseChunkFile, hrun₁]; rfl, hrun₂, htot.trans h.total.symm,
    fun i hi => ?_⟩
  rw [hlen] at hi
  have hf : (files doc)[i]? = some (files doc)[i] := List.getElem?_eq_getElem hi
  obtain ⟨n, hino, hn, hsize⟩ := h.file i _ hf
  obtain ⟨hn₁, hc₁⟩ := hsame i _ n hf hn
  obtain ⟨⟨m, hino', hm, hsize'⟩, hok, hst⟩ := hall i _ hf
  obtain rfl : n = m := by
    rw [ho.lookup, hn₁, Option.some.injEq] at hm
    exact hm
  have hc₂ : os₂.inodes n = os.inodes n := by rw [ho.inodes, hc₁]
  refine ⟨by rw [hino', hino], by simp [Os.content, hino', hino, hc₂],
    by rw [hsize', hsize, hc₂], fun ops hfit malloc malloc' => ?_⟩
  refine ⟨_, FreeChunkList.results_eq (h.lists i hi) hfit, ?_⟩
  rw [FreeChunkList.results_eq hok (by rwa [hst]), hst]

/-- One chunk file of one chunk, named `0`, open at `3`; the name of its free list is `1`. -/
def oneFile : Os ℕ where
  names p := if p = 0 then some (.file 0) else none
  inodes _ := List.replicate 4096 1
  nextIno := 1
  fds fd := if fd = 3 then some ⟨0, 0⟩ else none
  nextFd := 4

/-- A list with two pages, the second of them not in use. -/
def twoPages : FreeChunkList :=
  ⟨2048, 1023, fun q => if q < 2 then some fun _ => 0 else none⟩

/-- A restart with one chunk file; the list comes back with one page. -/
theorem restart_observes_oneFile :
    let doc : List (XmlEvent ℕ) :=
      [.start .other, .start (.total 1), .finish, .start (.file 0 1), .finish, .finish]
    let cfi : ChunkFileInfo := ⟨1, fun _ => 3, fun _ => 4096, fun _ => twoPages⟩
    ∃ os₁ os₂ cfi', releaseChunkFile oneFile cfi doc = some os₁ ∧
      initChunkFile ⟨fun _ _ _ => 0, fun _ => 0⟩ os₁ cfi doc = some (os₂, cfi') ∧
      cfi'.total = cfi.total ∧
      ∀ i < cfi.files, os₂.ino (cfi'.fds i) = oneFile.ino (cfi.fds i) ∧
        os₂.content (cfi'.fds i) = oneFile.content (cfi.fds i) ∧
        cfi'.curSize i = cfi.curSize i ∧ Observes (cfi.fcls i) (cfi'.fcls i) := by
  intro doc cfi
  have hok : twoPages.Ok := by
    refine ⟨rfl, by decide, by decide, by decide, fun q hq => ?_⟩
    have : q < 2 := by
      simp only [twoPages] at hq
      exact Fin.lt_def.2 (by simp; omega)
    simp [twoPages, this]
  have hlk : oneFile.lookup 0 = some 0 := Os.lookup_file rfl
  have hone : oneFile.names 1 = none := rfl
  have hsited : oneFile.Sited (paths doc) := by
    have hfree : oneFile.lookup 1 = none := by simp [Os.lookup, Os.resolve_none hone]
    refine ⟨⟨fun p n hp => ?_, fun fd f hf => ?_⟩, ?_, ?_⟩
    · simp only [oneFile] at hp ⊢
      split_ifs at hp
      simp_all
    · simp only [oneFile] at hf ⊢
      split_ifs at hf
      omega
    · simp [doc, paths, files, hlk, hone]
    · simp [doc, paths, files, hlk, hfree]
  refine restart_observes (by simp [doc, TotalFirst, NoTotal, files]) (by simp [doc, paths, files])
    ⟨hsited, rfl, fun i f hf => ?_, fun _ _ => hok⟩ _ _
  obtain ⟨rfl, rfl⟩ : i = 0 ∧ (0, 1) = f := by
    cases i with
    | zero => simpa [doc, files] using hf
    | succ i => simp [doc, files] at hf
  exact ⟨0, rfl, hlk, List.length_replicate.symm⟩

end Agilefs
