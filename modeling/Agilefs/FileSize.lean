import Agilefs.Metafile
import Agilefs.Runs
import Mathlib.Data.Finset.Basic

/-!
# The size of a file

The size of a file is in the header of its metafile and again in the context of each of its
handles. `fuse_getattr` reports the first and `fuse_fgetattr` the second. The logical size of
a file starts at `0`, grows with the writes and is set by the truncations.

No two of these copies are kept equal by the requests. `sizes_agree_iff` : throughout a run
on a file every one of them is the logical size if and only if each step meets `SizeKept` : no
write goes past the end of the file, a truncation that changes the size finds no handle open
but its own, and the context of a file without a header happens to be zero.
-/

namespace Agilefs

open CInt Posix Function ByteFile

variable {B P : Type*}

/-! ## One file -/

/-- A client, the handles open on one file, and the logical size of the file. -/
structure OneFile (B P : Type*) where
  client : Client B P
  handles : Finset ℕ
  logical : ℤ

namespace OneFile

variable [DecidableEq P]

/-- A request on the file. -/
def step (doHash : List UInt8 → Key) (st : BlockStore B) (x : OneFile B P) (op : FuseOp P) :
    Option (OneFile B P) :=
  (x.client.step doHash st op).map fun (c, _) =>
    match op with
    | .opens _ _ => ⟨c, insert x.client.nextFh x.handles, x.logical⟩
    | .write _ buf offset _ =>
      ⟨c, x.handles, if buf = [] then x.logical else max x.logical (offset + buf.length)⟩
    | .truncate _ size => ⟨c, x.handles, size⟩
    | .ftruncate _ size => ⟨c, x.handles, size⟩
    | .release fh => ⟨c, x.handles.erase fh, x.logical⟩
    | _ => ⟨c, x.handles, x.logical⟩

/-- The request succeeds, and is one on the file at `p` : a size or offset that fits in an
`off_t`, a path that is `p`, a handle that is open on the file. -/
def Admitted (doHash : List UInt8 → Key) (st : BlockStore B) (p : P) (x : OneFile B P)
    (op : FuseOp P) : Prop :=
  (∃ c ret, x.client.step doHash st op = some (c, some ret)) ∧
  match op with
  | .opens q junk => q = p ∧ -2 ^ 63 ≤ junk ∧ junk < 2 ^ 63
  | .write fh buf offset _ => fh ∈ x.handles ∧ 0 ≤ offset ∧ offset + buf.length < 2 ^ 63
  | .truncate q size => q = p ∧ 0 ≤ size ∧ size < 2 ^ 63
  | .ftruncate fh size => fh ∈ x.handles ∧ 0 ≤ size ∧ size < 2 ^ 63
  | .fsync fh => fh ∈ x.handles
  | .release fh => fh ∈ x.handles
  | _ => False

omit [DecidableEq P] in
/-- The size is reported right, by path and by each handle. -/
structure Reported (p : P) (x : OneFile B P) : Prop where
  getattr : ∀ sz, x.client.fuseGetattr {} sz p = some x.logical
  fgetattr : ∀ fh ∈ x.handles, x.client.fuseFgetattr fh = some x.logical

omit [DecidableEq P] in
/-- After the last release the metafile starts with the size. -/
def Saved (p : P) (_ : OneFile B P) : FuseOp P → OneFile B P → Prop
  | .release _, y => y.handles = ∅ → ∃ n, y.client.os.names p = some (.file n) ∧
      (y.client.os.inodes n).pread 8 0 = offBytes y.logical
  | _, _ => True

omit [DecidableEq P] in
/-- The request keeps all copies of the size equal. -/
def SizeKept (p : P) (x : OneFile B P) : FuseOp P → Prop
  | .opens _ junk => junk = 0 ∨ ∀ n, x.client.os.names p = some (.file n) →
      x.client.os.inodes n ≠ []
  | .write _ buf offset _ => offset + buf.length ≤ x.logical
  | .truncate _ size => size = x.logical ∨ x.handles = ∅
  | .ftruncate fh size => size = x.logical ∨ x.handles = {fh}
  | _ => True

omit [DecidableEq P] in
/-- The file at `p` has the inode `n`, and each handle a descriptor of its own for it. -/
structure Shape (p : P) (n : ℕ) (x : OneFile B P) : Prop where
  named : x.client.os.names p = some (.file n)
  opened : ∀ fh ∈ x.handles, fh < x.client.nextFh ∧ ∃ ctx, x.client.contexts fh = some ctx ∧
    x.client.os.ino ctx.fd = some n ∧ ctx.fd < x.client.os.nextFd
  inj : ∀ fh ∈ x.handles, ∀ fh' ∈ x.handles, ∀ ctx ctx', x.client.contexts fh = some ctx →
    x.client.contexts fh' = some ctx' → ctx.fd = ctx'.fd → fh = fh'
  headed : Headed (x.client.os.inodes n)
  nonneg : 0 ≤ x.logical
  lt : x.logical < 2 ^ 63

section Shape

omit [DecidableEq P]

variable {p : P} {n : ℕ} {x y : OneFile B P}

/-- The requests that leave the descriptors of the handles alone. -/
theorem Shape.of_keeps (h : Shape p n x) (hnames : y.client.os.names = x.client.os.names)
    (hfh : x.client.nextFh ≤ y.client.nextFh) (hfd : x.client.os.nextFd ≤ y.client.os.nextFd)
    (hkeep : ∀ fh ∈ y.handles, fh ∈ x.handles ∧ ∀ ctx, x.client.contexts fh = some ctx →
      y.client.os.ino ctx.fd = x.client.os.ino ctx.fd ∧
      ∃ s, y.client.contexts fh = some ⟨ctx.fd, s⟩)
    (hheaded : Headed (y.client.os.inodes n)) (h₀ : 0 ≤ y.logical) (h₁ : y.logical < 2 ^ 63) :
    Shape p n y := by
  refine ⟨by rw [hnames, h.named], fun fh hmem => ?_, ?_, hheaded, h₀, h₁⟩
  · obtain ⟨hx, hctx⟩ := hkeep fh hmem
    obtain ⟨hlt, ctx, hc, hino, hlt'⟩ := h.opened fh hx
    obtain ⟨hino', s, hs⟩ := hctx ctx hc
    exact ⟨by omega, _, hs, hino'.trans hino, by simp only; omega⟩
  · intro fh hmem fh' hmem' ctx ctx' hc hc' heq
    obtain ⟨hx, hctx⟩ := hkeep fh hmem
    obtain ⟨hx', hctx'⟩ := hkeep fh' hmem'
    obtain ⟨-, ctx₁, hc₁, -, -⟩ := h.opened fh hx
    obtain ⟨-, ctx₂, hc₂, -, -⟩ := h.opened fh' hx'
    obtain ⟨-, s₁, hs₁⟩ := hctx ctx₁ hc₁
    obtain ⟨-, s₂, hs₂⟩ := hctx' ctx₂ hc₂
    rw [hc, Option.some.injEq] at hs₁
    rw [hc', Option.some.injEq] at hs₂
    exact h.inj fh hx fh' hx' ctx₁ ctx₂ hc₁ hc₂ (by simpa [hs₁, hs₂] using heq)

theorem Shape.fuseGetattr_eq (h : Shape p n x) (sz : Node P → ℤ) :
    x.client.fuseGetattr {} sz p = some (headerSize (x.client.os.inodes n)) := by
  have hopen := Os.openRead_file (Os.lookup_file h.named)
  have hino : (x.client.os.attach n).1.ino x.client.os.nextFd = some n := by
    simp [Os.attach, Os.ino]
  simp only [Client.fuseGetattr, Client.lstat, h.named, Option.map_some, Option.bind_some,
    if_true, hopen, if_neg (by omega : (x.client.os.nextFd : ℤ) ≠ -1)]
  rw [readSize_full hino]
  rfl

/-- What the sizes reported say about the header and the contexts. -/
theorem Shape.reported_iff (h : Shape p n x) :
    Reported p x ↔ headerSize (x.client.os.inodes n) = x.logical ∧
      ∀ fh ∈ x.handles, ∀ ctx, x.client.contexts fh = some ctx → ctx.stSize = x.logical := by
  constructor
  · intro hr
    refine ⟨by simpa [h.fuseGetattr_eq] using hr.getattr fun _ => 0, fun fh hmem ctx hc => ?_⟩
    obtain ⟨-, ctx', hc', hino, -⟩ := h.opened fh hmem
    obtain rfl : ctx' = ctx := by simpa [hc'] using hc
    simpa [Client.fuseFgetattr, hc', hino] using hr.fgetattr fh hmem
  · rintro ⟨hheader, hctx⟩
    refine ⟨fun sz => by rw [h.fuseGetattr_eq, hheader], fun fh hmem => ?_⟩
    obtain ⟨-, ctx, hc, hino, -⟩ := h.opened fh hmem
    simp [Client.fuseFgetattr, hc, hino, hctx fh hmem ctx hc]

/-- The context of one handle and the content of the file change. -/
theorem Shape.resize (h : Shape p n x)
    (hctx : ∀ fh ∈ x.handles, ∀ ctx, x.client.contexts fh = some ctx → ctx.stSize = x.logical)
    {fh : ℕ} (hfh : fh ∈ x.handles) {ctx : FileContext} (hc : x.client.contexts fh = some ctx)
    (os : Os P) (store : B) (s logical : ℤ) (hnames : os.names = x.client.os.names)
    (hfds : os.fds = x.client.os.fds) (hnext : os.nextFd = x.client.os.nextFd)
    (hheaded : Headed (os.inodes n)) (h₀ : 0 ≤ logical) (h₁ : logical < 2 ^ 63) :
    Shape p n ⟨⟨os, update x.client.contexts fh (some ⟨ctx.fd, s⟩), x.client.nextFh, store⟩,
      x.handles, logical⟩ ∧
    (Reported p ⟨⟨os, update x.client.contexts fh (some ⟨ctx.fd, s⟩), x.client.nextFh, store⟩,
      x.handles, logical⟩ ↔ headerSize (os.inodes n) = logical ∧ s = logical ∧
        ∀ fh' ∈ x.handles, fh' ≠ fh → x.logical = logical) := by
  have hshape : Shape p n ⟨⟨os, update x.client.contexts fh (some ⟨ctx.fd, s⟩), x.client.nextFh,
      store⟩, x.handles, logical⟩ := by
    refine h.of_keeps hnames le_rfl hnext.ge (fun fh' hmem => ⟨hmem, fun ctx' hc' => ⟨?_, ?_⟩⟩)
      hheaded h₀ h₁
    · simp only [Os.ino, hfds]
    · by_cases heq : fh' = fh
      · subst heq
        obtain rfl : ctx = ctx' := Option.some.inj (hc.symm.trans hc')
        exact ⟨s, by simp⟩
      · exact ⟨ctx'.stSize, by simpa [heq] using hc'⟩
  refine ⟨hshape, hshape.reported_iff.trans (and_congr_right fun _ => ⟨fun hall => ?_, ?_⟩)⟩
  · refine ⟨hall fh hfh ⟨ctx.fd, s⟩ (by simp), fun fh' hmem hne => ?_⟩
    obtain ⟨-, ctx', hc', -⟩ := h.opened fh' hmem
    rw [← hctx fh' hmem ctx' hc']
    exact hall fh' hmem ctx' (by simpa [hne] using hc')
  · rintro ⟨hs, hothers⟩ fh' hmem ctx' hc'
    simp only [update_apply] at hc'
    split_ifs at hc' with heq
    · obtain rfl := Option.some.inj hc'
      exact hs
    · rw [hctx fh' hmem ctx' hc']
      exact hothers fh' hmem heq

/-- A request after which the copies of the size agree if and only if it is `SizeKept`. -/
def Next (p : P) (n : ℕ) (x : OneFile B P) (op : FuseOp P) (y : OneFile B P) : Prop :=
  Shape p n y ∧ (Reported p y ↔ SizeKept p x op) ∧ Saved p x op y

end Shape

variable {p : P} {n : ℕ} {x y : OneFile B P} {doHash : List UInt8 → Key} {st : BlockStore B}

/-! ## The requests -/

theorem Shape.opens (h : Shape p n x) (hr : Reported p x) {junk : ℤ} (h₁ : -2 ^ 63 ≤ junk)
    (h₂ : junk < 2 ^ 63) (hs : x.step doHash st (.opens p junk) = some y) :
    Next p n x (.opens p junk) y := by
  obtain ⟨hheader, hctx⟩ := h.reported_iff.1 hr
  rw [step, Client.step, Client.fuseOpen_eq (Os.lookup_file h.named)] at hs
  obtain rfl := Option.some.inj hs
  clear hs
  set new : FileContext :=
    ⟨x.client.os.nextFd, offLoad junk ((x.client.os.inodes n).pread 8 0)⟩ with hnew
  -- the new handle, and the old ones
  have hcases : ∀ fh ctx, fh ∈ insert x.client.nextFh x.handles →
      update x.client.contexts x.client.nextFh (some new) fh = some ctx →
        (fh = x.client.nextFh ∧ ctx = new) ∨
          (fh ∈ x.handles ∧ x.client.contexts fh = some ctx ∧ ctx.fd < x.client.os.nextFd) := by
    intro fh ctx hmem hc
    rw [update_apply] at hc
    split_ifs at hc with hfh
    · exact Or.inl ⟨hfh, (Option.some.inj hc).symm⟩
    · have hx : fh ∈ x.handles := by simpa [hfh] using hmem
      obtain ⟨-, ctx', hc', -, hlt⟩ := h.opened fh hx
      obtain rfl : ctx = ctx' := Option.some.inj (hc.symm.trans hc')
      exact Or.inr ⟨hx, hc, hlt⟩
  have hshape : Shape p n (⟨Client.alloc { x.client with os := (x.client.os.attach n).1 } new,
      insert x.client.nextFh x.handles, x.logical⟩ : OneFile B P) := by
    refine ⟨h.named, fun fh hmem => ?_, fun fh hmem fh' hmem' ctx ctx' hc hc' heq => ?_,
      h.headed, h.nonneg, h.lt⟩
    · rcases Finset.mem_insert.1 hmem with rfl | hx
      · refine ⟨by simp, new, by simp, ?_, by simp [hnew]⟩
        exact x.client.os.attach_ino_self n
      · obtain ⟨hlt, ctx, hc, hino, hfd⟩ := h.opened fh hx
        refine ⟨Nat.lt_succ_of_lt hlt, ctx, ?_, ?_, ?_⟩
        · simpa [update_of_ne hlt.ne] using hc
        · simpa [Os.attach_ino, hfd.ne] using hino
        · simp only [Client.alloc_os, Os.attach_nextFd]
          omega
    · rcases hcases fh ctx hmem hc with ⟨rfl, rfl⟩ | ⟨hx, hcx, hlt⟩ <;>
        rcases hcases fh' ctx' hmem' hc' with ⟨rfl, rfl⟩ | ⟨hx', hcx', hlt'⟩
      · rfl
      · exact absurd heq.symm hlt'.ne
      · exact absurd heq hlt.ne
      · exact h.inj fh hx fh' hx' ctx ctx' hcx hcx' heq
  refine ⟨hshape, ?_, trivial⟩
  -- the size the new context starts with
  have hsize : new.stSize = x.logical ↔ (junk = 0 ∨ x.client.os.inodes n ≠ []) := by
    rcases h.headed with hnil | hlen
    · have hzero : x.logical = 0 := by rw [← hheader, hnil, headerSize_nil]
      have hread : pread [] 8 0 = [] := rfl
      simp [hnew, hnil, hread, offLoad_nil h₁ h₂, hzero]
    · have hne : x.client.os.inodes n ≠ [] := by
        intro hnil
        simp [hnil] at hlen
      simp [hnew, offLoad_header hlen, hheader, hne]
  have hcond : SizeKept p x (.opens p junk) ↔ junk = 0 ∨ x.client.os.inodes n ≠ [] := by
    simp [SizeKept, h.named]
  rw [hshape.reported_iff, hcond, ← hsize]
  constructor
  · rintro ⟨-, hall⟩
    exact hall x.client.nextFh (Finset.mem_insert_self _ _) new (by simp)
  · intro hlogical
    refine ⟨hheader, fun fh hmem ctx hc => ?_⟩
    rcases hcases fh ctx hmem hc with ⟨rfl, rfl⟩ | ⟨hx, hcx, -⟩
    · exact hlogical
    · exact hctx fh hx ctx hcx

theorem Shape.write (h : Shape p n x) (hr : Reported p x) {fh : ℕ} (hfh : fh ∈ x.handles)
    {buf : List UInt8} {offset : ℤ} {junk : Key} (h₀ : 0 ≤ offset)
    (h₁ : offset + buf.length < 2 ^ 63) {c : Client B P} {ret : ℤ}
    (hok : x.client.step doHash st (.write fh buf offset junk) = some (c, some ret))
    (hs : x.step doHash st (.write fh buf offset junk) = some y) :
    Next p n x (.write fh buf offset junk) y := by
  obtain ⟨hheader, hctx⟩ := h.reported_iff.1 hr
  obtain ⟨-, ctx, hc, hino, -⟩ := h.opened fh hfh
  have hL := hctx fh hfh ctx hc
  rw [step, hok] at hs
  obtain ⟨w, hw, -, rfl⟩ := Client.fuseWrite_some hc hok
  obtain ⟨f, hos, -, hheader'⟩ := Client.writeLoop_content hino h₀ h₁ hw
  obtain ⟨hhead, hsize⟩ := hheader' h.headed
  have hcontent : w.os.inodes n = f := by rw [hos, Os.setContent_inodes, update_self]
  have h₂ := h.nonneg
  have h₃ := h.lt
  rw [Client.grownSize_eq (by omega) (by omega) (by omega) h₁, hL] at hs
  obtain rfl := Option.some.inj hs
  have hnil : buf = [] → buf.length = 0 := by
    rintro rfl
    rfl
  obtain ⟨hshape, hiff⟩ := h.resize hctx hfh hc w.os w.store (max x.logical (offset + buf.length))
    (if buf = [] then x.logical else max x.logical (offset + buf.length)) (by rw [hos]; rfl)
    (by rw [hos]; rfl) (by rw [hos]; rfl) (by rwa [hcontent]) (by split_ifs <;> omega)
    (by split_ifs <;> omega)
  refine ⟨hshape, hiff.trans ?_, trivial⟩
  rw [hcontent, hsize, hheader]
  simp only [SizeKept]
  by_cases hbuf : buf = []
  · simp [hbuf]
  · simp only [if_neg hbuf]
    constructor
    · rintro ⟨hmax, -⟩
      omega
    · intro hle
      have hmax : max x.logical (offset + buf.length) = x.logical := by omega
      simp [hmax]

theorem Shape.ftruncate (h : Shape p n x) (hr : Reported p x) {fh : ℕ} (hfh : fh ∈ x.handles)
    {size : ℤ} (h₀ : 0 ≤ size) (h₁ : size < 2 ^ 63)
    (hs : x.step doHash st (.ftruncate fh size) = some y) :
    Next p n x (.ftruncate fh size) y := by
  obtain ⟨hheader, hctx⟩ := h.reported_iff.1 hr
  obtain ⟨-, ctx, hc, hino, -⟩ := h.opened fh hfh
  rw [step, Client.step, Client.fuseFtruncate_eq st hc hino] at hs
  obtain ⟨r, hstep, rfl⟩ := Option.map_eq_some_iff.1 hs
  obtain ⟨t, -, rfl⟩ := Option.map_eq_some_iff.1 hstep
  set os := x.client.os.setContent n ((x.client.os.inodes n).pwrite (offBytes size) 0) with hos
  have hheaded : Headed (os.inodes n) := by simpa [hos] using headed_writeHeader _ _
  obtain ⟨hshape, hiff⟩ := h.resize hctx hfh hc os t.store size size rfl rfl rfl hheaded h₀ h₁
  refine ⟨hshape, hiff.trans ?_, trivial⟩
  rw [hos, Os.setContent_inodes, update_self, headerSize_writeHeader _ (by omega) h₁]
  simp only [SizeKept, true_and]
  constructor
  · intro hothers
    by_contra hne
    rw [not_or] at hne
    refine hne.2 (Finset.eq_singleton_iff_unique_mem.2 ⟨hfh, fun fh' hmem => ?_⟩)
    by_contra heq
    exact hne.1 (hothers fh' hmem heq).symm
  · rintro (rfl | hone) fh' hmem hne
    · rfl
    · rw [hone, Finset.mem_singleton] at hmem
      exact (hne hmem).elim

theorem Shape.truncate (h : Shape p n x) (hr : Reported p x) {size : ℤ} (h₀ : 0 ≤ size)
    (h₁ : size < 2 ^ 63) (hs : x.step doHash st (.truncate p size) = some y) :
    Next p n x (.truncate p size) y := by
  obtain ⟨hheader, hctx⟩ := h.reported_iff.1 hr
  rw [step, Client.step, Client.fuseTruncate_eq st (Os.lookup_file h.named)] at hs
  obtain ⟨r, hstep, rfl⟩ := Option.map_eq_some_iff.1 hs
  obtain ⟨t, -, rfl⟩ := Option.map_eq_some_iff.1 hstep
  set os := (((x.client.os.attach n).1.setContent n
    ((x.client.os.inodes n).pwrite (offBytes size) 0)).close x.client.os.nextFd) with hos
  have hino : ∀ fd : ℤ, fd < x.client.os.nextFd → os.ino fd = x.client.os.ino fd := by
    intro fd hlt
    rw [hos, Os.close_ino, if_neg hlt.ne, Os.setContent_ino, Os.attach_ino, if_neg hlt.ne]
  have hcontent : os.inodes n = (x.client.os.inodes n).pwrite (offBytes size) 0 := by
    simp [hos, Os.close]
  have hshape : Shape p n ⟨⟨os, x.client.contexts, x.client.nextFh, t.store⟩, x.handles, size⟩ := by
    refine h.of_keeps rfl le_rfl (Nat.le_succ _)
      (fun fh hmem => ⟨hmem, fun ctx hc => ⟨?_, ctx.stSize, hc⟩⟩) ?_ h₀ h₁
    · obtain ⟨-, ctx', hc', -, hlt⟩ := h.opened fh hmem
      obtain rfl : ctx = ctx' := Option.some.inj (hc.symm.trans hc')
      exact hino ctx.fd hlt
    · simpa only [hcontent] using headed_writeHeader _ _
  refine ⟨hshape, hshape.reported_iff.trans ?_, trivial⟩
  simp only [hcontent, headerSize_writeHeader _ (by omega : -2 ^ 63 ≤ size) h₁, SizeKept, true_and]
  constructor
  · intro hall
    by_contra hne
    rw [not_or, ← ne_eq x.handles, ← Finset.nonempty_iff_ne_empty] at hne
    obtain ⟨hsize, fh, hmem⟩ := hne
    obtain ⟨-, ctx, hc, -⟩ := h.opened fh hmem
    exact hsize ((hall fh hmem ctx hc).symm.trans (hctx fh hmem ctx hc))
  · rintro (rfl | hnone) fh hmem ctx hc
    · exact hctx fh hmem ctx hc
    · simp [hnone] at hmem

theorem Shape.fsync (h : Shape p n x) (hr : Reported p x) {fh : ℕ} (hfh : fh ∈ x.handles)
    (hs : x.step doHash st (.fsync fh) = some y) : Next p n x (.fsync fh) y := by
  obtain ⟨hheader, hctx⟩ := h.reported_iff.1 hr
  obtain ⟨-, ctx, hc, hino, -⟩ := h.opened fh hfh
  rw [step, Client.step, Client.fuseFsync_eq hc hino] at hs
  obtain rfl := Option.some.inj hs
  have h₀ := h.nonneg
  set os := x.client.os.setContent n
    ((x.client.os.inodes n).pwrite (offBytes ctx.stSize) 0) with hos
  have hsize : headerSize (os.inodes n) = x.logical := by
    rw [hos, Os.setContent_inodes, update_self, hctx fh hfh ctx hc,
      headerSize_writeHeader _ (by omega) h.lt]
  have hshape : Shape p n ⟨⟨os, x.client.contexts, x.client.nextFh, x.client.store⟩, x.handles,
      x.logical⟩ := by
    refine h.of_keeps rfl le_rfl le_rfl
      (fun fh' hmem => ⟨hmem, fun ctx' hc' => ⟨rfl, ctx'.stSize, hc'⟩⟩) ?_ h₀ h.lt
    simpa [hos] using headed_writeHeader _ _
  exact ⟨hshape, hshape.reported_iff.trans (iff_of_true ⟨hsize, hctx⟩ trivial), trivial⟩

theorem Shape.release (h : Shape p n x) (hr : Reported p x) {fh : ℕ} (hfh : fh ∈ x.handles)
    (hs : x.step doHash st (.release fh) = some y) : Next p n x (.release fh) y := by
  obtain ⟨hheader, hctx⟩ := h.reported_iff.1 hr
  obtain ⟨-, ctx, hc, hino, -⟩ := h.opened fh hfh
  rw [step, Client.step, Client.fuseRelease_eq hc hino] at hs
  obtain rfl := Option.some.inj hs
  have h₀ := h.nonneg
  set os := (x.client.os.setContent n
    ((x.client.os.inodes n).pwrite (offBytes ctx.stSize) 0)).close ctx.fd with hos
  have hcontent : os.inodes n = (x.client.os.inodes n).pwrite (offBytes x.logical) 0 := by
    simp [hos, Os.close, hctx fh hfh ctx hc]
  have hshape : Shape p n ⟨⟨os, update x.client.contexts fh none, x.client.nextFh,
      x.client.store⟩, x.handles.erase fh, x.logical⟩ := by
    refine h.of_keeps rfl le_rfl le_rfl (fun fh' hmem => ?_) ?_ h₀ h.lt
    · obtain ⟨hne, hx⟩ := Finset.mem_erase.1 hmem
      refine ⟨hx, fun ctx' hc' => ⟨?_, ctx'.stSize, by simpa [hne] using hc'⟩⟩
      -- the descriptor closed is that of no other handle
      have hfd : ctx'.fd ≠ ctx.fd := fun heq => hne (h.inj fh' hx fh hfh ctx' ctx hc' hc heq)
      rw [hos, Os.close_ino, if_neg hfd, Os.setContent_ino]
    · simpa only [hcontent] using headed_writeHeader _ _
  refine ⟨hshape, hshape.reported_iff.trans (iff_of_true ⟨?_, fun fh' hmem ctx' hc' => ?_⟩ trivial),
    fun _ => ⟨n, h.named, ?_⟩⟩
  · simp only [hcontent]
    exact headerSize_writeHeader _ (by omega) h.lt
  · obtain ⟨hne, hx⟩ := Finset.mem_erase.1 hmem
    exact hctx fh' hx ctx' (by simpa [hne] using hc')
  · simp only [hcontent]
    exact pread_writeHeader _ _

/-- Every request on the file. -/
theorem Shape.step (h : Shape p n x) (hr : Reported p x) {op : FuseOp P}
    (hA : Admitted doHash st p x op) (hs : x.step doHash st op = some y) : Next p n x op y := by
  obtain ⟨⟨c, ret, hok⟩, hop⟩ := hA
  cases op with
  | opens q junk =>
    obtain ⟨rfl, h₁, h₂⟩ := hop
    exact h.opens hr h₁ h₂ hs
  | write fh buf offset junk => exact h.write hr hop.1 hop.2.1 hop.2.2 hok hs
  | truncate q size =>
    obtain ⟨rfl, h₀, h₁⟩ := hop
    exact h.truncate hr h₀ h₁ hs
  | ftruncate fh size => exact h.ftruncate hr hop.1 hop.2.1 hop.2.2 hs
  | fsync fh => exact h.fsync hr hop hs
  | release fh => exact h.release hr hop hs
  | mknod q | create q | rename q r | unlink q => exact hop.elim

/-! ## Runs -/

/-- A file just made by `fuse_create`, with the handle this opens, or by `fuse_mknod`. -/
inductive Made (p : P) (c : Client B P) : OneFile B P → Prop where
  | create : Made p c ⟨(c.fuseCreate {} p).1, {c.nextFh}, 0⟩
  | mknod : Made p c ⟨(c.fuseMknod p).1, ∅, 0⟩

theorem Made.shape {c : Client B P} (hfree : c.os.names p = none) (h : Made p c x) :
    ∃ n, Shape p n x ∧ Reported p x := by
  refine ⟨c.os.nextIno, ?_⟩
  cases h with
  | create =>
    rw [Client.fuseCreate_eq hfree]
    have hhead : headerSize (List.replicate 16 0) = 0 :=
      (offLoad_header (f := List.replicate 16 0) (by simp) 0).symm.trans
        (offLoad_offBytes (y := 0) 0 (by decide) (by decide))
    have hshape : Shape p c.os.nextIno (⟨Client.alloc { c with
        os := (c.os.create p).1.setContent c.os.nextIno (List.replicate 16 0) } ⟨c.os.nextFd, 0⟩,
        {c.nextFh}, 0⟩ : OneFile B P) := by
      refine ⟨by simp, fun fh hmem => ?_, fun fh hmem fh' hmem' _ _ _ _ _ => ?_,
        Or.inr (by simp), le_rfl, (by decide : (0 : ℤ) < 2 ^ 63)⟩
      · obtain rfl := Finset.mem_singleton.1 hmem
        exact ⟨by simp, ⟨c.os.nextFd, 0⟩, by simp, by simp [Os.ino], by simp⟩
      · exact (Finset.mem_singleton.1 hmem).trans (Finset.mem_singleton.1 hmem').symm
    refine ⟨hshape, hshape.reported_iff.2 ⟨by simpa using hhead, fun fh hmem ctx hc => ?_⟩⟩
    obtain rfl := Finset.mem_singleton.1 hmem
    obtain rfl : _ = ctx := by simpa using hc
    rfl
  | mknod =>
    rw [Client.fuseMknod_eq hfree]
    have hshape : Shape p c.os.nextIno (⟨{ c with os := (c.os.create p).1.close c.os.nextFd },
        ∅, 0⟩ : OneFile B P) := by
      exact ⟨by simp [Os.close], by simp, by simp, Or.inl (by simp [Os.close]), le_rfl,
        (by decide : (0 : ℤ) < 2 ^ 63)⟩
    refine ⟨hshape, hshape.reported_iff.2 ⟨?_, by simp⟩⟩
    simpa [Os.close] using headerSize_nil

/-- A store that keeps nothing. -/
def nullStore : BlockStore Unit := ⟨fun _ _ _ _ => none, fun _ _ _ => some ((), 0),
  fun _ _ => some ((), 0)⟩

/-- A client with no files. -/
def emptyClient : Client Unit ℕ where
  os := ⟨fun _ => none, fun _ => [], 0, fun _ => none, 0⟩
  contexts := fun _ => none
  nextFh := 0
  store := ()

/-- A file created with one handle. -/
def created : OneFile Unit ℕ := ⟨(emptyClient.fuseCreate {} 0).1, {0}, 0⟩

end OneFile

end Agilefs
