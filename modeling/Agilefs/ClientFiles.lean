import Agilefs.Holes
import Agilefs.Mirror

/-!
# The requests of a client

Over a store that keeps its blocks, every request that fits leads from a client that stands for a
file system to one that stands for what the request should make of it, and returns what it should.
There is a lemma for each request; `Mirrors.change` puts together those that change something.
-/

namespace Agilefs

open CInt Posix Function ByteFile

variable {B P : Type*}

namespace Client

variable {doHash : List UInt8 → Key} {v : StoreView B} {S : Set (List UInt8)}
  {c c' : Client (B × List StoreCall) P} {s : FileSys P} {n : ℕ}

/-! ## The requests -/

/-- The client and the file system take the request `op` to states that still fit, and return the
same. -/
def Follows [DecidableEq P] (doHash : List UInt8 → Key) (st : BlockStore B) (v : StoreView B)
    (S : Set (List UInt8)) (c : Client (B × List StoreCall) P) (s : FileSys P) (op : FuseOp P) :
    Prop :=
  ∃ c' s' ret, c.step doHash st.recorded op = some (c', ret) ∧ s.change op = some (s', ret) ∧
    c'.Mirrors doHash v S s'

section Requests

variable [DecidableEq P] {st : BlockStore B} {p q : P} {fh : ℕ}

omit [DecidableEq P] in
theorem Mirrors.file (h : c.Mirrors doHash v S s) (hp : s.names p = some n) :
    c.os.names p = some (.file n) := by
  rw [h.names, hp, Option.map_some]

omit [DecidableEq P] in
theorem Mirrors.lookup (h : c.Mirrors doHash v S s) (hp : s.names p = some n) :
    c.os.lookup p = some n :=
  Os.lookup_file (h.file hp)

omit [DecidableEq P] in
theorem Mirrors.unnamed (h : c.Mirrors doHash v S s) (hp : s.names p = none) :
    c.os.names p = none := by
  rw [h.names, hp, Option.map_none]

omit [DecidableEq P] in
theorem Mirrors.openExisting_none (h : c.Mirrors doHash v S s) (hp : s.names p = none) :
    c.os.openExisting p = (c.os, -1) := by
  simp [Os.openExisting, Os.lookup, Os.resolve, h.unnamed hp]

theorem Mirrors.openExcl_some (h : c.Mirrors doHash v S s) (hp : s.names p = some n) :
    c.os.openExcl p = (c.os, -1) := by
  simp [Os.openExcl, h.file hp]

/-- Descriptors after a file is created. -/
theorem keepsFds_create (os : Os P) (p : P) (f : ByteFile) :
    KeepsFds os ((os.create p).1.setContent os.nextIno f) := by
  refine ⟨fun fd hfd => ?_, by simp⟩
  simp [Os.ino, hfd.ne]

theorem Mirrors.mknod (h : c.Mirrors doHash v S s) (p : P) :
    Follows doHash st v S c s (.mknod p) := by
  cases hp : s.names p with
  | none =>
    have hstep : c.step doHash st.recorded (.mknod p) =
        some ({ c with os := (c.os.create p).1.close c.os.nextFd }, some 0) := by
      rw [step, fuseMknod_eq (h.unnamed hp)]
    refine ⟨_, s.create p, some 0, hstep, by simp [FileSys.change, hp],
      h.born hp ⟨fun fd hfd => ?_, by simp [Os.close]⟩ rfl rfl rfl rfl rfl
        (fun m hm => update_of_ne hm _ _) ?_⟩
    · rw [Os.close_ino, if_neg hfd.ne]
      simp [Os.ino, hfd.ne]
    · have hnil : ((c.os.create p).1.close c.os.nextFd).inodes c.os.nextIno = [] := by
        simp [Os.close]
      rw [hnil]
      exact ⟨by simp, Or.inl rfl, headerSize_nil⟩
  | some n =>
    exact ⟨c, s, none, by simp [step, fuseMknod, h.openExcl_some hp],
      by simp [FileSys.change, hp], h⟩

theorem Mirrors.create (h : c.Mirrors doHash v S s) (p : P) :
    Follows doHash st v S c s (.create p) := by
  cases hp : s.names p with
  | none =>
    set os := (c.os.create p).1.setContent c.os.nextIno (List.replicate 16 0) with hos
    have hfds := keepsFds_create c.os p (List.replicate 16 0)
    have hheader : List.replicate 16 (0 : UInt8) = offBytes 0 ++ offBytes 0 := by decide
    have hzero : headerSize (List.replicate 16 0) = 0 := by decide
    -- the file is there before the handle is
    have h₁ : Mirrors doHash v S { c with os } (s.create p) := by
      refine h.born hp hfds rfl rfl rfl rfl rfl (fun m hm => ?_) ?_
      · simp [hos, hm]
      · have hnew : os.inodes c.os.nextIno = List.replicate 16 0 := by simp [hos]
        rw [hnew, hzero]
        exact ⟨by simp, Or.inr (by simp), rfl⟩
    have hclosed : (s.create p).Closed s.nextFile := fun fh hfh => by
      have := (h.handles fh _ hfh).2.1
      omega
    have hino : os.ino c.os.nextFd = some s.nextFile := by simp [hos, Os.ino, h.nextFile]
    refine ⟨_, (s.create p).attach s.nextFile, some 0, by rw [step, fuseCreate_eq (h.unnamed hp)],
      by simp [FileSys.change, hp], ?_⟩
    exact h₁.attach (p := p) (by simp [FileSys.create]) hclosed ⟨fun _ _ => rfl, le_rfl⟩ rfl rfl rfl
      rfl hino (by simp) (by simp [FileSys.create]) rfl
  | some n =>
    exact ⟨c, s, none, by simp [step, fuseCreate, h.openExcl_some hp],
      by simp [FileSys.change, hp], h⟩

/-- The size an open reads from the metafile. -/
theorem offLoad_of_headed {f : ByteFile} (hf : Headed f) {junk : ℤ} (hjunk : junk = 0 ∨ f ≠ []) :
    offLoad junk (f.pread 8 0) = headerSize f := by
  rcases hf with rfl | hlen
  · obtain rfl : junk = 0 := hjunk.resolve_right (not_not.2 rfl)
    rfl
  · exact offLoad_header hlen junk

theorem Mirrors.opens (h : c.Mirrors doHash v S s) {junk : ℤ}
    (hclosed : ∀ n, s.names p = some n → s.Closed n)
    (hjunk : junk = 0 ∨ (c.os.lookup p).map c.os.inodes ≠ some []) :
    Follows doHash st v S c s (.opens p junk) := by
  cases hp : s.names p with
  | none =>
    exact ⟨c, s, none, by simp [step, fuseOpen, h.openExisting_none hp],
      by simp [FileSys.change, hp], h⟩
  | some n =>
    obtain ⟨hheaded, hsize⟩ := h.saved p n hp (hclosed n hp)
    have hload := offLoad_of_headed hheaded (hjunk.imp_right fun hne hnil => hne (by
      rw [h.lookup hp, Option.map_some, hnil]))
    refine ⟨_, s.attach n, some 0, by rw [step, fuseOpen_eq (h.lookup hp), hload, hsize],
      by simp [FileSys.change, hp], ?_⟩
    exact h.attach hp (hclosed n hp) ⟨fun fd hfd => by simp [Os.attach_ino, hfd.ne], by simp⟩ rfl
      rfl rfl rfl (c.os.attach_ino_self n) (by simp) rfl rfl

/-- A write that begins inside the file or at its end. -/
theorem Mirrors.write (hst : st.Lasting v) (hinj : S.InjOn doHash)
    (hzero : ∀ d ∈ S, doHash d ≠ Key.zero) (h : c.Mirrors doHash v S s) {buf : List UInt8}
    {offset : ℤ} {junk : Key} (hfh : s.handles fh = some n) (h₀ : 0 ≤ offset)
    (hle : offset ≤ (s.bytes n).length) (hmax : offset + buf.length < 2 ^ 63)
    (hsize : buf.length < 2 ^ 31)
    (hS : ∀ y ret, c.step doHash st.recorded (.write fh buf offset junk) = some (y, ret) →
      ∀ z ∈ puts y.store.2, z.2 ∈ S) :
    Follows doHash st v S c s (.write fh buf offset junk) := by
  obtain ⟨-, -, fd, hc, hino, -⟩ := h.handles fh n hfh
  have hb := h.describes n (Or.inr ⟨fh, hfh⟩)
  have hlt := hb.lt
  set J := c.writeJob v doHash n buf offset junk with hJdef
  have hJ : J.Sparse S := ⟨hb.whole, fun i hi => hb.named i (J.hasEntry_iff_live.2 hi),
    h.addressed, hinj, hzero⟩
  obtain ⟨w, hw⟩ : ∃ w, writeLoop doHash st.recorded {} fd buf offset
      ⟨c.os, c.store, junk, offset, true⟩ = some w :=
    writeLoop_returns (recorded_del_isSome hst.del_isSome) (recorded_put_isSome hst.put_isSome) {}
      fd h₀ hmax rfl
  obtain ⟨hok, -, hstored⟩ := WriteJob.writeLoop_stores hst hJ hino h₀ hmax rfl rfl hw
  obtain ⟨f, hos, -, -⟩ := writeLoop_content hino h₀ hmax hw
  have hgrown := grownSize_eq (by omega : 0 ≤ ((s.bytes n).length : ℤ)) (by omega)
    (by omega : 0 ≤ offset + (buf.length : ℤ)) hmax
  have hlen : (((s.bytes n).pwrite buf offset.toNat).length : ℤ) =
      max ((s.bytes n).length : ℤ) (offset + buf.length) := by
    by_cases hbuf : buf = []
    · rw [hbuf, pwrite_nil, List.length_nil]
      omega
    · rw [length_pwrite _ hbuf]
      omega
  have hstep : c.step doHash st.recorded (.write fh buf offset junk) = some
      ({ c with
          os := w.os
          store := w.store
          contexts := update c.contexts fh
            (some ⟨fd, (((s.bytes n).pwrite buf offset.toNat).length : ℤ)⟩) },
        some (buf.length : ℤ)) := by
    have hret := int32_of_range (by omega : -2 ^ 31 ≤ (buf.length : ℤ)) (by omega)
    simp only [step, fuseWrite, hc, Option.bind_some, hw, Option.map_some, hok, if_true, hgrown,
      hlen, hret]
  replace hstored := hstored (hS _ _ hstep)
  have hother : ∀ fh' m, s.handles fh' = some m → m ≠ n → fh' ≠ fh := by
    rintro _ m hm hmn rfl
    rw [hfh, Option.some_inj] at hm
    exact hmn hm.symm
  refine ⟨_, s.setBytes n ((s.bytes n).pwrite buf offset.toNat), _, hstep,
    by simp [FileSys.change, hfh], h.set ?_ (by simp [hos]) (by simp [hos]) rfl
      (fun m hm => by simp [hos, hm]) (fun fh' m hm hmn => update_of_ne (hother fh' m hm hmn) _ _)
      (fun fh' fd' hfh' hc' => ?_) hstored.kept hstored.addressed
      (fun _ => hstored.describes hJ hb h₀ hle hmax) fun p _ hcl => (hcl fh hfh).elim⟩
  · exact ⟨fun fd _ => by simp [hos], by simp [hos]⟩
  · obtain rfl := h.alone fh' fh n hfh' hfh
    rw [hc, Option.some_inj, FileContext.mk.injEq] at hc'
    rw [← hc'.1]
    exact update_self ..

/-- A shorter file. -/
theorem length_take_toNat {b : ByteFile} {size : ℤ} (h₀ : 0 ≤ size) (hle : size ≤ b.length) :
    ((b.take size.toNat).length : ℤ) = size := by
  rw [List.length_take]
  omega

theorem Mirrors.ftruncate (hst : st.Lasting v) (h : c.Mirrors doHash v S s) {size : ℤ}
    (hfh : s.handles fh = some n) (h₀ : 0 ≤ size) (hle : size ≤ (s.bytes n).length) :
    Follows doHash st v S c s (.ftruncate fh size) := by
  obtain ⟨-, -, fd, hc, hino, -⟩ := h.handles fh n hfh
  obtain ⟨t, ht⟩ := truncLoop_returns (recorded_del_isSome hst.del_isSome) c.os {} fd
    ((s.bytes n).length : ℤ) ⟨c.store, .zero, roundUp size⟩
  have hchunk : v.chunk t.store.1 = v.chunk c.store.1 := Tracked.truncLoop_chunk hst ht
  have hlen := length_take_toNat h₀ hle
  have hstep := fuseFtruncate_eq st.recorded hc hino size
  simp only [ht, Option.map_some] at hstep
  have hother : ∀ fh' m, s.handles fh' = some m → m ≠ n → fh' ≠ fh := by
    rintro _ m hm hmn rfl
    rw [hfh, Option.some_inj] at hm
    exact hmn hm.symm
  refine ⟨_, s.setBytes n ((s.bytes n).take size.toNat), some 0, hstep,
    by simp [FileSys.change, hfh], h.set ⟨fun _ _ => rfl, le_rfl⟩ rfl rfl rfl
      (fun m hm => update_of_ne hm _ _)
      (fun fh' m hm hmn => update_of_ne (hother fh' m hm hmn) _ _) (fun fh' fd' hfh' hc' => ?_)
      (fun k d hd => by rwa [hchunk]) (by rw [hchunk]; exact h.addressed) (fun hlive => ?_)
      fun p _ hcl => (hcl fh hfh).elim⟩
  · obtain rfl := h.alone fh' fh n hfh' hfh
    rw [hc, Option.some_inj, FileContext.mk.injEq] at hc'
    rw [← hc'.1, hlen]
    exact update_self ..
  · simp only [Os.setContent_inodes, update_self, hchunk]
    exact ((h.describes n hlive).take _).congr fun i => entryBytes_writeHeader _ _ i

omit [DecidableEq P] in
/-- Descriptors after a descriptor of one's own is closed. -/
theorem keepsFds_closed (os : Os P) (n : ℕ) (f : ByteFile) :
    KeepsFds os (((os.attach n).1.setContent n f).close os.nextFd) := by
  refine ⟨fun fd hfd => ?_, ?_⟩
  · rw [Os.close_ino, if_neg hfd.ne, Os.setContent_ino, Os.attach_ino, if_neg hfd.ne]
  · simp [Os.close]

theorem Mirrors.truncate (hst : st.Lasting v) (h : c.Mirrors doHash v S s) {size : ℤ}
    (h₀ : 0 ≤ size)
    (hfit : ∀ n, s.names p = some n → s.Closed n ∧ size ≤ (s.bytes n).length) :
    Follows doHash st v S c s (.truncate p size) := by
  cases hp : s.names p with
  | none =>
    exact ⟨c, s, none, by simp [step, fuseTruncate, h.openExisting_none hp],
      by simp [FileSys.change, hp], h⟩
  | some n =>
    obtain ⟨hclosed, hle⟩ := hfit n hp
    have hb := h.describes n (Or.inl ⟨p, hp⟩)
    have hlt := hb.lt
    obtain ⟨t, ht⟩ := truncLoop_returns (recorded_del_isSome hst.del_isSome) (c.os.attach n).1 {}
      c.os.nextFd (offLoad 0 ((c.os.inodes n).pread 8 0)) ⟨c.store, .zero, roundUp size⟩
    have hchunk : v.chunk t.store.1 = v.chunk c.store.1 := Tracked.truncLoop_chunk hst ht
    have hlen := length_take_toNat h₀ hle
    have hstep := fuseTruncate_eq st.recorded (h.lookup hp) size
    simp only [ht, Option.map_some] at hstep
    refine ⟨_, s.setBytes n ((s.bytes n).take size.toNat), some 0, hstep,
      by simp [FileSys.change, hp], h.set (keepsFds_closed c.os n _) rfl rfl rfl
        (fun m hm => update_of_ne hm _ _) (fun _ _ _ _ => rfl)
        (fun fh _ hfh _ => (hclosed fh hfh).elim) (fun k d hd => by rwa [hchunk])
        (by rw [hchunk]; exact h.addressed) (fun _ => ?_) fun _ _ _ => ?_⟩
    · simp only [Os.close, Os.setContent_inodes, update_self, hchunk]
      exact (hb.take _).congr fun i => entryBytes_writeHeader _ _ i
    · simp only [Os.close, Os.setContent_inodes, update_self]
      rw [hlen]
      exact ⟨headed_writeHeader _ _, headerSize_writeHeader _ (by omega) (by omega)⟩

omit [DecidableEq P] in
/-- The size of an open file is written to its metafile. -/
theorem Mirrors.sync (h : c.Mirrors doHash v S s) (hfh : s.handles fh = some n) :
    Mirrors doHash v S
      { c with
        os := c.os.setContent n ((c.os.inodes n).pwrite (offBytes ((s.bytes n).length : ℤ)) 0) }
      s := by
  set c' : Client (B × List StoreCall) P :=
    { c with
      os := c.os.setContent n ((c.os.inodes n).pwrite (offBytes ((s.bytes n).length : ℤ)) 0) }
  have hset : c'.Mirrors doHash v S (s.setBytes n (s.bytes n)) := h.set
    ⟨fun _ _ => rfl, le_rfl⟩ rfl rfl rfl (fun m hm => update_of_ne hm _ _) (fun _ _ _ _ => rfl)
    (fun _ _ _ hc => hc) (fun _ _ hd => hd) h.addressed (fun hlive => ?_)
    fun _ _ hcl => (hcl fh hfh).elim
  · rwa [FileSys.setBytes_self] at hset
  · simp only [c', Os.setContent_inodes, update_self]
    exact (h.describes n hlive).congr fun i => entryBytes_writeHeader _ _ i

theorem Mirrors.fsync (h : c.Mirrors doHash v S s) (hfh : s.handles fh = some n) :
    Follows doHash st v S c s (.fsync fh) := by
  obtain ⟨-, -, fd, hc, hino, -⟩ := h.handles fh n hfh
  exact ⟨_, s, some 0, fuseFsync_eq hc hino, by simp [FileSys.change, hfh], h.sync hfh⟩

theorem Mirrors.release (h : c.Mirrors doHash v S s) (hfh : s.handles fh = some n) :
    Follows doHash st v S c s (.release fh) := by
  obtain ⟨-, -, fd, hc, hino, -⟩ := h.handles fh n hfh
  have hlt := (h.describes n (Or.inr ⟨fh, hfh⟩)).lt
  refine ⟨_, { s with handles := update s.handles fh none }, some 0, fuseRelease_eq hc hino,
    by simp only [FileSys.change, hfh, Option.map_some], (h.sync hfh).detach hfh hc ?_⟩
  simp only [Os.setContent_inodes, update_self]
  exact ⟨headed_writeHeader _ _, headerSize_writeHeader _ (by omega) (by omega)⟩

theorem Mirrors.renames (h : c.Mirrors doHash v S s) (p q : P) :
    Follows doHash st v S c s (.rename p q) := by
  cases hp : s.names p with
  | none =>
    exact ⟨c, s, none, by simp [step, fuseRename, Os.rename, h.unnamed hp],
      by simp [FileSys.change, hp], h⟩
  | some n =>
    by_cases hpq : p = q
    · subst hpq
      exact ⟨c, s, some 0, by simp [step, fuseRename, Os.rename, h.file hp],
        by simp [FileSys.change, hp], h⟩
    -- the name `q` is new, or one of another file
    have hrename : c.os.rename p q = some { c.os with
        names := update (update c.os.names q (some (.file n))) p none } := by
      cases hq : s.names q with
      | none => simp only [Os.rename, h.file hp, h.unnamed hq]
      | some m =>
        have hmn : n ≠ m := fun hnm => hpq (h.inj p q n hp (hnm ▸ hq))
        simp [Os.rename, h.file hp, h.file hq, hpq, Node.SameFile, hmn]
    have hold : ∀ r m, update (update s.names q (some n)) p none r = some m →
        r ≠ p ∧ (r = q ∧ m = n ∨ r ≠ q ∧ s.names r = some m) := by
      intro r m hr
      by_cases hrp : r = p
      · simp [hrp] at hr
      · rw [update_of_ne hrp] at hr
        by_cases hrq : r = q
        · subst hrq
          exact ⟨hrp, Or.inl ⟨rfl, by simpa using hr.symm⟩⟩
        · exact ⟨hrp, Or.inr ⟨hrq, by simpa [hrq] using hr⟩⟩
    have hstep : c.step doHash st.recorded (.rename p q) = some ({ c with os := { c.os with
        names := update (update c.os.names q (some (.file n))) p none } }, some 0) := by
      simp only [step, fuseRename, hrename]
    refine ⟨_, { s with names := update (update s.names q (some n)) p none }, some 0, hstep,
      by simp [FileSys.change, hp, hpq],
      h.rename (fun r => ?_) (fun r m hr => ?_) fun r r' m hr hr' => ?_⟩
    · by_cases hrp : r = p
      · simp [hrp]
      · by_cases hrq : r = q
        · simp [hrq, Ne.symm hpq]
        · simpa [hrp, hrq] using h.names r
    · rcases (hold r m hr).2 with ⟨-, rfl⟩ | ⟨-, hr'⟩
      · exact ⟨p, hp⟩
      · exact ⟨r, hr'⟩
    · obtain ⟨hrp, hcase⟩ := hold r m hr
      obtain ⟨hrp', hcase'⟩ := hold r' m hr'
      rcases hcase with ⟨rfl, rfl⟩ | ⟨-, h₁⟩ <;> rcases hcase' with ⟨rfl, heq⟩ | ⟨-, h₂⟩
      · rfl
      · exact absurd (h.inj r' p m h₂ hp) hrp'
      · exact absurd (h.inj r p m h₁ (heq ▸ hp)) hrp
      · exact h.inj r r' m h₁ h₂

/-- The file keeps its bytes for the handle that may be open on it. -/
theorem Mirrors.unlink (hst : st.Lasting v) (h : c.Mirrors doHash v S s) (p : P) :
    Follows doHash st v S c s (.unlink p) := by
  cases hp : s.names p with
  | none =>
    refine ⟨c, s, none, ?_, by simp [FileSys.change, hp], h⟩
    simp [step, fuseUnlink, fuseTruncate, h.openExisting_none hp, Os.unlink, h.unnamed hp]
  | some n =>
    obtain ⟨t, ht⟩ := truncLoop_returns (recorded_del_isSome hst.del_isSome) (c.os.attach n).1 {}
      c.os.nextFd (offLoad 0 ((c.os.inodes n).pread 8 0)) ⟨c.store, .zero, roundUp 0⟩
    have hchunk : v.chunk t.store.1 = v.chunk c.store.1 := Tracked.truncLoop_chunk hst ht
    have htrunc := fuseTruncate_eq st.recorded (h.lookup hp) 0
    simp only [ht, Option.map_some] at htrunc
    have hold : ∀ r m, update s.names p none r = some m → r ≠ p ∧ s.names r = some m := by
      intro r m hr
      by_cases hrp : r = p
      · simp [hrp] at hr
      · exact ⟨hrp, by simpa [hrp] using hr⟩
    have hnames : ∀ r, update c.os.names p none r = (update s.names p none r).map .file := by
      intro r
      by_cases hrp : r = p
      · simp [hrp]
      · simpa [hrp] using h.names r
    have h₁ := h.rename hnames (fun r m hr => ⟨r, (hold r m hr).2⟩)
      fun r r' m hr hr' => h.inj r r' m (hold r m hr).2 (hold r' m hr').2
    set os := ((c.os.attach n).1.setContent n
      ((c.os.inodes n).pwrite (offBytes 0) 0)).close c.os.nextFd with hos
    have hstep : c.step doHash st.recorded (.unlink p) = some
        ({ c with os := { os with names := update c.os.names p none }, store := t.store },
          some 0) := by
      have hunlink : os.unlink p = some { os with names := update c.os.names p none } := by
        have hfile : os.names p = some (.file n) := h.file hp
        simp only [Os.unlink, hfile]
        rfl
      simp only [step, fuseUnlink, htrunc, Option.map_some, hunlink]
    refine ⟨_, { s with names := update s.names p none }, some 0, hstep,
      by simp only [FileSys.change, hp], ?_⟩
    have hkeep := keepsFds_closed c.os n ((c.os.inodes n).pwrite (offBytes 0) 0)
    set c' : Client (B × List StoreCall) P :=
      { c with os := { os with names := update c.os.names p none }, store := t.store }
    have hset : c'.Mirrors doHash v S
        (FileSys.setBytes { s with names := update s.names p none } n (s.bytes n)) := h₁.set
      ⟨hkeep.ino, hkeep.nextFd⟩ rfl rfl rfl (fun m hm => update_of_ne hm _ _) (fun _ _ _ _ => rfl)
      (fun _ _ _ hc => hc) (fun k d hd => by rwa [hchunk]) (by rw [hchunk]; exact h.addressed)
      (fun hlive => ?_) fun r hr _ => ?_
    · rwa [FileSys.setBytes_self] at hset
    · simp only [c', hos, Os.close, Os.setContent_inodes, update_self, hchunk]
      exact (h₁.describes n hlive).congr fun i => entryBytes_writeHeader _ _ i
    · exact absurd (h.inj r p n (hold r n hr).2 hp) (hold r n hr).1

/-! ## Bytes and sizes -/

omit [DecidableEq P] in
/-- `fuse_read` over a store that reads the blocks of the file. -/
theorem Mirrors.read {A : Type*} {c : Client A P} {st' : BlockStore A}
    {c₀ : Client (B × List StoreCall) P} (h : c₀.Mirrors doHash v S s) (hos : c.os = c₀.os)
    (hctx : c.contexts = c₀.contexts) (hfh : s.handles fh = some n) {buf : List UInt8} {offset : ℤ}
    (h₀ : 0 ≤ offset) (hend : offset + buf.length ≤ (s.bytes n).length)
    (hsize : buf.length < 2 ^ 31)
    (hread : ReadsBlocks st' c.store (c.os.inodes n) (s.bytes n) offset (offset + buf.length))
    (junk : Key) : c.fuseRead noCache st' () {} fh buf offset junk =
      some ((), (s.bytes n).pread buf.length offset.toNat, some (buf.length : ℤ)) := by
  obtain ⟨-, -, fd, hc, hino, -⟩ := h.handles fh n hfh
  rw [← hctx] at hc
  rw [← hos] at hino
  exact fuseRead_bytes hc hino (h.describes n (Or.inr ⟨fh, hfh⟩)).lt h₀ hend hsize hread junk

omit [DecidableEq P] in
/-- The size of a file that is not open is in its metafile. -/
theorem Mirrors.getattr (h : c.Mirrors doHash v S s)
    (hclosed : ∀ n, s.names p = some n → s.Closed n) (sz : Node P → ℤ) :
    c.fuseGetattr {} sz p = (s.names p).map fun n => ((s.bytes n).length : ℤ) := by
  cases hp : s.names p with
  | none => simp [fuseGetattr, lstat, h.unnamed hp]
  | some n =>
    obtain ⟨hheaded, hsize⟩ := h.saved p n hp (hclosed n hp)
    have hlt := (h.describes n (Or.inl ⟨p, hp⟩)).lt
    have hshape : OneFile.Shape p n ⟨c, ∅, ((s.bytes n).length : ℤ)⟩ :=
      ⟨h.file hp, by simp, by simp, hheaded, by simp, by simp only; omega⟩
    rw [hshape.fuseGetattr_eq, hsize, Option.map_some]

omit [DecidableEq P] in
theorem Mirrors.fgetattr (h : c.Mirrors doHash v S s) (hfh : s.handles fh = some n) :
    c.fuseFgetattr fh = some ((s.bytes n).length : ℤ) := by
  obtain ⟨-, -, fd, hc, hino, -⟩ := h.handles fh n hfh
  simp only [fuseFgetattr, hc, Option.bind_some, hino, Option.map_some]

/-! ## Runs -/

omit [DecidableEq P] in
/-- A size can be read when `p` is opened : the `st_size` of the context was zero, or the metafile
has a header. -/
def Sized (c : Client B P) : FileCall P → Prop
  | .change (.opens p junk) => junk = 0 ∨ (c.os.lookup p).map c.os.inodes ≠ some []
  | _ => True

instance (c : Client B P) : ∀ call, Decidable (c.Sized call)
  | .change (.opens _ _) => inferInstanceAs (Decidable (_ ∨ _ ≠ _))
  | .change (.mknod _) | .change (.create _) | .change (.write _ _ _ _) | .change (.truncate _ _)
  | .change (.ftruncate _ _) | .change (.fsync _) | .change (.release _) | .change (.rename _ _)
  | .change (.unlink _) | .read _ _ _ _ | .getattr _ _ | .fgetattr _ => isTrue trivial

/-- A request that changes something. -/
theorem Mirrors.change (hst : st.Lasting v) (hinj : S.InjOn doHash)
    (hzero : ∀ d ∈ S, doHash d ≠ Key.zero) (h : c.Mirrors doHash v S s) {op : FuseOp P}
    (hfit : s.Fits (.change op)) (hsized : c.Sized (.change op))
    (hS : ∀ y ret, c.step doHash st.recorded op = some (y, ret) →
      ∀ z ∈ puts y.store.2, z.2 ∈ S) : Follows doHash st v S c s op := by
  cases op with
  | mknod p => exact h.mknod p
  | create p => exact h.create p
  | opens p junk => exact h.opens hfit hsized
  | write fh buf offset junk =>
    obtain ⟨n, hfh, h₀, hle, hmax, hsize⟩ := hfit
    exact h.write hst hinj hzero hfh h₀ hle hmax hsize hS
  | truncate p size => exact h.truncate hst hfit.1 hfit.2
  | ftruncate fh size =>
    obtain ⟨n, hfh, h₀, hle⟩ := hfit
    exact h.ftruncate hst hfh h₀ hle
  | fsync fh =>
    obtain ⟨n, hfh, -⟩ := hfit
    exact h.fsync hfh
  | release fh =>
    obtain ⟨n, hfh, -⟩ := hfit
    exact h.release hfh
  | rename p q => exact h.renames p q
  | unlink p => exact h.unlink hst p

end Requests

/-- A client without files. -/
theorem mirrors_empty (hnames : ∀ p, c.os.names p = none)
    (haddr : Addressed doHash S (v.chunk c.store.1)) :
    c.Mirrors doHash v S (.empty c.os.nextIno c.nextFh) := by
  refine ⟨fun p => hnames p, fun p n hp => ?_, fun p q n hp _ => ?_, fun fh n hfh => ?_,
    fun fh fh' n hfh _ => ?_, fun n hn => ?_, fun p n hp _ => ?_, rfl, rfl, haddr⟩
  · cases hp
  · cases hp
  · cases hfh
  · cases hfh
  · rcases hn with ⟨p, hp⟩ | ⟨fh, hfh⟩
    · cases hp
    · cases hfh
  · cases hp

end Client

end Agilefs
