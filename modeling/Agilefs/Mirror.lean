import Agilefs.FileBytes

/-!
# The client as a file system

`Mirrors` : the names, the handles and the metafiles of a client, with the chunks of its store,
stand for a file system of byte arrays. A file may get other bytes (`Mirrors.set`), be created
(`Mirrors.born`), opened (`Mirrors.attach`) and closed (`Mirrors.detach`), and names may change
(`Mirrors.rename`) : each lemma asks of the new client only what the change needs.
-/

namespace Agilefs

open CInt Posix Function ByteFile

variable {B P : Type*}

/-- The descriptors handed out so far are as they were. -/
structure KeepsFds (os os' : Os P) : Prop where
  ino : ∀ fd : ℤ, fd < os.nextFd → os'.ino fd = os.ino fd
  nextFd : os.nextFd ≤ os'.nextFd

namespace FileSys

/-- File `n` has a name or is open. -/
def Live (s : FileSys P) (n : ℕ) : Prop := (∃ p, s.names p = some n) ∨ ∃ fh, s.handles fh = some n

theorem setBytes_self (s : FileSys P) (n : ℕ) : s.setBytes n (s.bytes n) = s := by
  simp [setBytes]

end FileSys

/-- The client stands for the file system `s`. -/
structure Client.Mirrors (doHash : List UInt8 → Key) (v : StoreView B) (S : Set (List UInt8))
    (c : Client (B × List StoreCall) P) (s : FileSys P) : Prop where
  names : ∀ p, c.os.names p = (s.names p).map .file
  named : ∀ p n, s.names p = some n → n < s.nextFile
  inj : ∀ p q n, s.names p = some n → s.names q = some n → p = q
  handles : ∀ fh n, s.handles fh = some n → fh < s.nextFh ∧ n < s.nextFile ∧
    ∃ fd, c.contexts fh = some ⟨fd, ((s.bytes n).length : ℤ)⟩ ∧ c.os.ino fd = some n ∧
      fd < c.os.nextFd
  alone : ∀ fh fh' n, s.handles fh = some n → s.handles fh' = some n → fh = fh'
  describes : ∀ n, s.Live n → Describes (v.chunk c.store.1) (c.os.inodes n) (s.bytes n)
  saved : ∀ p n, s.names p = some n → s.Closed n →
    Headed (c.os.inodes n) ∧ headerSize (c.os.inodes n) = (s.bytes n).length
  nextFile : c.os.nextIno = s.nextFile
  nextFh : c.nextFh = s.nextFh
  addressed : Addressed doHash S (v.chunk c.store.1)

namespace Client

variable {doHash : List UInt8 → Key} {v : StoreView B} {S : Set (List UInt8)}
  {c c' : Client (B × List StoreCall) P} {s : FileSys P} {n : ℕ}

/-! ## The changes to a client -/

/-- One file gets other bytes, or another header. -/
theorem Mirrors.set (h : c.Mirrors doHash v S s) {b : ByteFile} (hos : KeepsFds c.os c'.os)
    (hnames : c'.os.names = c.os.names) (hfile : c'.os.nextIno = c.os.nextIno)
    (hfh : c'.nextFh = c.nextFh) (hinodes : ∀ m, m ≠ n → c'.os.inodes m = c.os.inodes m)
    (hctx : ∀ fh m, s.handles fh = some m → m ≠ n → c'.contexts fh = c.contexts fh)
    (hself : ∀ fh fd, s.handles fh = some n → c.contexts fh = some ⟨fd, ((s.bytes n).length : ℤ)⟩ →
      c'.contexts fh = some ⟨fd, (b.length : ℤ)⟩)
    (hkept : ∀ k d, v.chunk c.store.1 k = some d → v.chunk c'.store.1 k = some d)
    (haddr : Addressed doHash S (v.chunk c'.store.1))
    (hb : s.Live n → Describes (v.chunk c'.store.1) (c'.os.inodes n) b)
    (hsaved : ∀ p, s.names p = some n → s.Closed n →
      Headed (c'.os.inodes n) ∧ headerSize (c'.os.inodes n) = b.length) :
    c'.Mirrors doHash v S (s.setBytes n b) := by
  refine ⟨by rw [hnames]; exact h.names, h.named, h.inj, fun fh m hm => ?_, h.alone,
    fun m hm => ?_, fun p m hp hclosed => ?_, hfile.trans h.nextFile, hfh.trans h.nextFh, haddr⟩
  · obtain ⟨hlt, hlt', fd, hc, hino, hfd⟩ := h.handles fh m hm
    refine ⟨hlt, hlt', fd, ?_, (hos.ino fd hfd).trans hino, by have := hos.nextFd; omega⟩
    by_cases hmn : m = n
    · subst hmn
      simpa [FileSys.setBytes] using hself fh fd hm hc
    · simpa [FileSys.setBytes, hmn] using (hctx fh m hm hmn).trans hc
  · by_cases hmn : m = n
    · subst hmn
      simpa [FileSys.setBytes] using hb hm
    · simpa [FileSys.setBytes, hmn, hinodes m hmn] using (h.describes m hm).mono hkept
  · by_cases hmn : m = n
    · subst hmn
      simpa [FileSys.setBytes] using hsaved p hp hclosed
    · simpa [FileSys.setBytes, hmn, hinodes m hmn] using h.saved p m hp hclosed

/-- A new empty file. -/
theorem Mirrors.born [DecidableEq P] (h : c.Mirrors doHash v S s) {p : P} (hp : s.names p = none)
    (hos : KeepsFds c.os c'.os)
    (hnames : c'.os.names = update c.os.names p (some (.file c.os.nextIno)))
    (hfile : c'.os.nextIno = c.os.nextIno + 1) (hctx : c'.contexts = c.contexts)
    (hfh : c'.nextFh = c.nextFh) (hstore : c'.store = c.store)
    (hinodes : ∀ m, m ≠ c.os.nextIno → c'.os.inodes m = c.os.inodes m)
    (hnew : (c'.os.inodes c.os.nextIno).length ≤ 16 ∧ Headed (c'.os.inodes c.os.nextIno) ∧
      headerSize (c'.os.inodes c.os.nextIno) = 0) : c'.Mirrors doHash v S (s.create p) := by
  have hn := h.nextFile
  -- the other names, and the files open, are old
  have hold : ∀ q m, (s.create p).names q = some m →
      q = p ∧ m = s.nextFile ∨ q ≠ p ∧ s.names q = some m ∧ m < s.nextFile := by
    intro q m hq
    by_cases hqp : q = p
    · subst hqp
      exact Or.inl ⟨rfl, by simpa [FileSys.create] using hq.symm⟩
    · have hq' : s.names q = some m := by simpa [FileSys.create, hqp] using hq
      exact Or.inr ⟨hqp, hq', h.named q m hq'⟩
  have hbytes : ∀ m, m < s.nextFile → (s.create p).bytes m = s.bytes m := fun m hm =>
    update_of_ne hm.ne _ _
  refine ⟨fun q => ?_, fun q m hq => ?_, fun q r m hq hr => ?_, fun fh m hm => ?_, h.alone,
    fun m hm => ?_, fun q m hq hclosed => ?_, ?_, hfh.trans h.nextFh,
    by rw [hstore]; exact h.addressed⟩
  · rw [hnames, hn]
    by_cases hqp : q = p
    · simp [FileSys.create, hqp]
    · simpa [FileSys.create, hqp] using h.names q
  · have : (s.create p).nextFile = s.nextFile + 1 := rfl
    rcases hold q m hq with ⟨-, rfl⟩ | ⟨-, -, hlt⟩ <;> omega
  · rcases hold q m hq with ⟨rfl, hm⟩ | ⟨-, hq', hlt⟩ <;>
      rcases hold r m hr with ⟨rfl, hm'⟩ | ⟨-, hr', hlt'⟩
    · rfl
    · omega
    · omega
    · exact h.inj q r m hq' hr'
  · obtain ⟨hlt, hlt', fd, hc, hino, hfd⟩ := h.handles fh m hm
    exact ⟨hlt, Nat.lt_succ_of_lt hlt', fd, by rw [hctx, hbytes m hlt', hc],
      (hos.ino fd hfd).trans hino, by have := hos.nextFd; omega⟩
  · by_cases hmn : m = s.nextFile
    · subst hmn
      simpa [FileSys.create, hn] using describes_nil (by simpa [hn] using hnew.1)
    · have hlive : s.Live m := hm.imp_left fun ⟨q, hq⟩ => by
        rcases hold q m hq with ⟨-, hm'⟩ | ⟨-, hq', -⟩
        · exact absurd hm' hmn
        · exact ⟨q, hq'⟩
      rw [hstore, hinodes m (by rwa [hn])]
      simpa [FileSys.create, hmn] using h.describes m hlive
  · rcases hold q m hq with ⟨-, rfl⟩ | ⟨-, hq', hlt⟩
    · simpa [FileSys.create, hn] using hnew.2
    · rw [hbytes m hlt, hinodes m (by omega)]
      exact h.saved q m hq' hclosed
  · rw [hfile, hn]
    rfl

/-- A new handle for a file that is not open. -/
theorem Mirrors.attach (h : c.Mirrors doHash v S s) {p : P} (hp : s.names p = some n)
    (hclosed : s.Closed n) (hos : KeepsFds c.os c'.os) (hnames : c'.os.names = c.os.names)
    (hfile : c'.os.nextIno = c.os.nextIno) (hinodes : c'.os.inodes = c.os.inodes)
    (hstore : c'.store = c.store) {fd : ℤ} (hino : c'.os.ino fd = some n) (hfd : fd < c'.os.nextFd)
    (hctx : c'.contexts = update c.contexts c.nextFh (some ⟨fd, ((s.bytes n).length : ℤ)⟩))
    (hfh : c'.nextFh = c.nextFh + 1) : c'.Mirrors doHash v S (s.attach n) := by
  have hn := h.nextFh
  have hold : ∀ fh m, (s.attach n).handles fh = some m →
      fh = s.nextFh ∧ m = n ∨ fh ≠ s.nextFh ∧ s.handles fh = some m := by
    intro fh m hm
    by_cases hfh : fh = s.nextFh
    · subst hfh
      exact Or.inl ⟨rfl, by simpa [FileSys.attach] using hm.symm⟩
    · exact Or.inr ⟨hfh, by simpa [FileSys.attach, hfh] using hm⟩
  refine ⟨by rw [hnames]; exact h.names, h.named, h.inj, fun fh m hm => ?_,
    fun fh fh' m hm hm' => ?_, fun m hm => ?_, fun q m hq hcl => ?_, hfile.trans h.nextFile, ?_,
    by rw [hstore]; exact h.addressed⟩
  · rcases hold fh m hm with ⟨rfl, rfl⟩ | ⟨hne, hm'⟩
    · exact ⟨Nat.lt_succ_self _, h.named p m hp, fd, by rw [hctx, hn, update_self]; rfl, hino, hfd⟩
    · obtain ⟨hlt, hlt', fd', hc, hino', hfd'⟩ := h.handles fh m hm'
      refine ⟨Nat.lt_succ_of_lt hlt, hlt', fd', ?_, (hos.ino fd' hfd').trans hino',
        by have := hos.nextFd; omega⟩
      rw [hctx, hn, update_of_ne hne]
      exact hc
  · rcases hold fh m hm with ⟨rfl, rfl⟩ | ⟨-, hm₁⟩ <;>
      rcases hold fh' m hm' with ⟨rfl, heq⟩ | ⟨-, hm₂⟩
    · rfl
    · exact absurd hm₂ (hclosed fh')
    · exact absurd (heq ▸ hm₁) (hclosed fh)
    · exact h.alone fh fh' m hm₁ hm₂
  · rw [hstore, hinodes]
    refine h.describes m (hm.elim Or.inl fun ⟨fh, hm'⟩ => ?_)
    rcases hold fh m hm' with ⟨-, rfl⟩ | ⟨-, hm₁⟩
    · exact Or.inl ⟨p, hp⟩
    · exact Or.inr ⟨fh, hm₁⟩
  · rw [hinodes]
    refine h.saved q m hq fun fh hm => hcl fh ?_
    have hlt := (h.handles fh m hm).1
    simpa [FileSys.attach, hlt.ne] using hm
  · rw [hfh, hn]
    rfl

/-- A handle is closed, after the size is written. -/
theorem Mirrors.detach (h : c.Mirrors doHash v S s) {fh : ℕ} {fd : ℤ} {stSize : ℤ}
    (hfh : s.handles fh = some n) (hc : c.contexts fh = some ⟨fd, stSize⟩)
    (hsaved : Headed (c.os.inodes n) ∧ headerSize (c.os.inodes n) = (s.bytes n).length) :
    Mirrors doHash v S { c with os := c.os.close fd, contexts := update c.contexts fh none }
      { s with handles := update s.handles fh none } := by
  have hold : ∀ fh' m, update s.handles fh none fh' = some m →
      fh' ≠ fh ∧ s.handles fh' = some m := by
    intro fh' m hm
    by_cases hne : fh' = fh
    · simp [hne] at hm
    · exact ⟨hne, by simpa [hne] using hm⟩
  refine ⟨h.names, h.named, h.inj, fun fh' m hm => ?_, fun fh₁ fh₂ m h₁ h₂ => ?_, fun m hm => ?_,
    fun p m hp hcl => ?_, h.nextFile, h.nextFh, h.addressed⟩
  · obtain ⟨hne, hm'⟩ := hold fh' m hm
    obtain ⟨hlt, hlt', fd', hc', hino, hfd⟩ := h.handles fh' m hm'
    refine ⟨hlt, hlt', fd', (update_of_ne hne _ _).trans hc', ?_, hfd⟩
    -- its descriptor is another one, as its file is
    obtain ⟨-, -, fd₁, hc₁, hino₁, -⟩ := h.handles fh n hfh
    obtain rfl : fd₁ = fd := by
      rw [hc, Option.some_inj, FileContext.mk.injEq] at hc₁
      exact hc₁.1.symm
    rw [Os.close_ino, if_neg]
    · exact hino
    · rintro rfl
      rw [hino₁, Option.some_inj] at hino
      exact hne (h.alone fh' fh n (hino ▸ hm') hfh)
  · exact h.alone fh₁ fh₂ m (hold fh₁ m h₁).2 (hold fh₂ m h₂).2
  · exact h.describes m (hm.imp_right fun ⟨fh', hm'⟩ => ⟨fh', (hold fh' m hm').2⟩)
  · by_cases hmn : m = n
    · exact hmn ▸ hsaved
    · refine h.saved p m hp fun fh' hm => hcl fh' ?_
      have hne : fh' ≠ fh := by
        rintro rfl
        rw [hfh, Option.some_inj] at hm
        exact hmn hm.symm
      simpa [hne] using hm

/-- Some names change, to names of the same files. -/
theorem Mirrors.rename (h : c.Mirrors doHash v S s) {names : P → Option ℕ}
    {names' : P → Option (Node P)} (hnames : ∀ p, names' p = (names p).map .file)
    (hold : ∀ p m, names p = some m → ∃ q, s.names q = some m)
    (hinj : ∀ p q m, names p = some m → names q = some m → p = q) :
    Mirrors doHash v S { c with os := { c.os with names := names' } } { s with names } := by
  refine ⟨hnames, fun p m hp => ?_, hinj, h.handles, h.alone, fun m hm => h.describes m ?_,
    fun p m hp hcl => ?_, h.nextFile, h.nextFh, h.addressed⟩
  · obtain ⟨q, hq⟩ := hold p m hp
    exact h.named q m hq
  · exact hm.imp_left fun ⟨p, hp⟩ => hold p m hp
  · obtain ⟨q, hq⟩ := hold p m hp
    exact h.saved q m hq hcl

end Client

end Agilefs
