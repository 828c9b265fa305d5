import Agilefs.Metafile
import Mathlib.Algebra.BigOperators.Group.Finset.Basic
import Mathlib.Algebra.Order.BigOperators.Group.Finset

/-!
# The references of the files

A file that has a name refers to the keys of its blocks : the entries of its metafile below its
size, which is that in the context of its handle if it is open and that in the header if it is
not. `references c k` counts the references to `k` over all files.

`Regular` describes the clients of a mount on which each file has one name and at most one
handle. A request changes the references of one file only; `references_congr` is the rule for
the sum.
-/

namespace Agilefs

open Posix Function ByteFile

namespace Client

variable {B P : Type*}

/-! ## The size of a file -/

/-- The handle `fh`, with the context `ctx`, is open on the inode `n`. -/
def HandleOn (c : Client B P) (n fh : ℕ) (ctx : FileContext) : Prop :=
  c.contexts fh = some ctx ∧ c.os.ino ctx.fd = some n

/-- No handle is open on the inode. -/
def Closed (c : Client B P) (n : ℕ) : Prop :=
  ∀ fh ctx, ¬c.HandleOn n fh ctx

/-- The inode has a name. -/
def Linked (c : Client B P) (n : ℕ) : Prop :=
  ∃ p, c.os.names p = some (.file n)

open Classical in
/-- The size of a file with the handles `R` and the metafile `f`. -/
noncomputable def sizeBy (R : ℕ → FileContext → Prop) (f : ByteFile) : ℤ :=
  if h : ∃ ctx fh, R fh ctx then h.choose.stSize else headerSize f

/-- The size of the file with the inode `n`. -/
noncomputable def fileSize (c : Client B P) (n : ℕ) : ℤ :=
  sizeBy (c.HandleOn n) (c.os.inodes n)

theorem fileSize_closed {c : Client B P} {n : ℕ} (h : c.Closed n) :
    c.fileSize n = headerSize (c.os.inodes n) :=
  dif_neg fun ⟨ctx, fh, hR⟩ => h fh ctx hR

theorem fileSize_congr {c c' : Client B P} {m : ℕ} (hhandles : c'.HandleOn m = c.HandleOn m)
    (hcontent : c'.os.inodes m = c.os.inodes m) : c'.fileSize m = c.fileSize m := by
  rw [fileSize, fileSize, hhandles, hcontent]

/-- The size of an open file does not depend on its metafile. -/
theorem fileSize_of_handles {c c' : Client B P} {n : ℕ} (h : ¬c.Closed n)
    (hhandles : c'.HandleOn n = c.HandleOn n) : c'.fileSize n = c.fileSize n := by
  have hex : ∃ ctx fh, c.HandleOn n fh ctx := by
    simp only [Closed, not_forall, not_not] at h
    obtain ⟨fh, ctx, hon⟩ := h
    exact ⟨ctx, fh, hon⟩
  rw [fileSize, fileSize, hhandles, sizeBy, sizeBy, dif_pos hex, dif_pos hex]

/-! ## References -/

open Classical in
/-- How often the file with the inode `n` refers to `k`. -/
noncomputable def held (c : Client B P) (n : ℕ) (k : Key) : ℕ :=
  if c.Linked n then entryCount (c.os.inodes n) (blocks (c.fileSize n)) k else 0

/-- How often the files refer to `k`. -/
noncomputable def references (c : Client B P) (k : Key) : ℕ :=
  ∑ n ∈ Finset.range c.os.nextIno, c.held n k

theorem held_linked {c : Client B P} {n : ℕ} (h : c.Linked n) (k : Key) :
    c.held n k = entryCount (c.os.inodes n) (blocks (c.fileSize n)) k :=
  if_pos h

theorem held_unlinked {c : Client B P} {n : ℕ} (h : ¬c.Linked n) (k : Key) : c.held n k = 0 :=
  if_neg h

theorem held_le_references (c : Client B P) {n : ℕ} (hn : n < c.os.nextIno) (k : Key) :
    c.held n k ≤ c.references k :=
  Finset.single_le_sum (f := fun m => c.held m k) (fun _ _ => Nat.zero_le _)
    (Finset.mem_range.2 hn)

/-- A file whose size and entries stay. -/
theorem held_of_size {c c' : Client B P} {m : ℕ} (hlinked : c'.Linked m ↔ c.Linked m)
    (hsize : c'.fileSize m = c.fileSize m)
    (hentries : ∀ b, entryBytes (c'.os.inodes m) b = entryBytes (c.os.inodes m) b) (k : Key) :
    c'.held m k = c.held m k := by
  by_cases h : c.Linked m
  · rw [held_linked h, held_linked (hlinked.2 h), hsize]
    exact entryCount_congr (fun b _ => hentries b) k
  · rw [held_unlinked h, held_unlinked (mt hlinked.1 h)]

/-- A file none of whose handles, name and content changes. -/
theorem held_congr {c c' : Client B P} {m : ℕ} (hhandles : c'.HandleOn m = c.HandleOn m)
    (hlinked : c'.Linked m ↔ c.Linked m) (hcontent : c'.os.inodes m = c.os.inodes m) (k : Key) :
    c'.held m k = c.held m k :=
  held_of_size hlinked (fileSize_congr hhandles hcontent) (fun b => by rw [hcontent]) k

/-- Only the references of one file change. -/
theorem references_congr {c c' : Client B P} {n : ℕ} (hn : n < c.os.nextIno)
    (hnext : c'.os.nextIno = c.os.nextIno) {k : Key}
    (hother : ∀ m, m ≠ n → c'.held m k = c.held m k) :
    c'.references k + c.held n k = c.references k + c'.held n k := by
  have hmem : n ∈ Finset.range c.os.nextIno := Finset.mem_range.2 hn
  have hrest : ∑ m ∈ (Finset.range c.os.nextIno).erase n, c'.held m k =
      ∑ m ∈ (Finset.range c.os.nextIno).erase n, c.held m k :=
    Finset.sum_congr rfl fun m hm => hother m (Finset.ne_of_mem_erase hm)
  have h₁ := Finset.add_sum_erase _ (fun m => c.held m k) hmem
  have h₂ := Finset.add_sum_erase _ (fun m => c'.held m k) hmem
  simp only [references, hnext]
  omega

/-! ## Regular clients -/

/-- Each file has one name and at most one handle, and its metafile a header. -/
structure Regular (c : Client B P) : Prop where
  named : ∀ p n, c.os.names p = some (.file n) → n < c.os.nextIno
  plain : ∀ p q, c.os.names p ≠ some (.symlink q)
  single : ∀ p q n, c.os.names p = some (.file n) → c.os.names q = some (.file n) → p = q
  opened : ∀ fh ctx, c.contexts fh = some ctx → fh < c.nextFh ∧ ctx.fd < c.os.nextFd ∧
    ∃ n < c.os.nextIno, c.os.ino ctx.fd = some n
  alone : ∀ n fh fh' ctx ctx', c.HandleOn n fh ctx → c.HandleOn n fh' ctx' → fh = fh'
  header : ∀ n < c.os.nextIno, 16 ≤ (c.os.inodes n).length
  sized : ∀ n < c.os.nextIno, 0 ≤ c.fileSize n ∧ c.fileSize n < 2 ^ 63

theorem HandleOn.ctx_eq {c : Client B P} {n fh : ℕ} {ctx ctx' : FileContext}
    (h : c.HandleOn n fh ctx) (h' : c.HandleOn n fh ctx') : ctx = ctx' :=
  Option.some.inj (h.1.symm.trans h'.1)

theorem fileSize_open {c : Client B P} {n fh : ℕ} {ctx : FileContext}
    (halone : ∀ fh' ctx', c.HandleOn n fh' ctx' → fh' = fh) (h : c.HandleOn n fh ctx) :
    c.fileSize n = ctx.stSize := by
  have hex : ∃ ctx fh, c.HandleOn n fh ctx := ⟨ctx, fh, h⟩
  obtain ⟨fh', hfh'⟩ := hex.choose_spec
  obtain rfl := halone fh' _ hfh'
  rw [fileSize, sizeBy, dif_pos hex, hfh'.ctx_eq h]

theorem Regular.fileSize_open {c : Client B P} (hc : c.Regular) {n fh : ℕ} {ctx : FileContext}
    (h : c.HandleOn n fh ctx) : c.fileSize n = ctx.stSize :=
  Client.fileSize_open (fun fh' ctx' h' => hc.alone n fh' fh ctx' ctx h' h) h

/-- Without symbolic links a path leads to the file of its name. -/
theorem Regular.lookup_eq_some {c : Client B P} (hc : c.Regular) {p : P} {n : ℕ} :
    c.os.lookup p = some n ↔ c.os.names p = some (.file n) := by
  refine ⟨fun h => ?_, Os.lookup_file⟩
  cases hp : c.os.names p with
  | none => simp [Os.lookup, Os.resolve, hp] at h
  | some x =>
    cases x with
    | file m => simpa [Os.lookup, Os.resolve, hp] using h
    | symlink q => exact (hc.plain p q hp).elim
    | dir => simp [Os.lookup, Os.resolve, hp] at h

/-! ## Requests on one file -/

/-- `c'` differs from `c` in the content of one file and the context of its handle only. -/
structure Touches (c c' : Client B P) (n : ℕ) : Prop where
  names : c'.os.names = c.os.names
  nextIno : c'.os.nextIno = c.os.nextIno
  nextFd : c.os.nextFd ≤ c'.os.nextFd
  nextFh : c'.nextFh = c.nextFh
  contexts : ∀ fh ctx', c'.contexts fh = some ctx' → ∃ ctx, c.contexts fh = some ctx ∧
    ctx.fd = ctx'.fd ∧ c'.os.ino ctx'.fd = c.os.ino ctx.fd
  handles : ∀ m, m ≠ n → c'.HandleOn m = c.HandleOn m
  inodes : ∀ m, m ≠ n → c'.os.inodes m = c.os.inodes m
  header : 16 ≤ (c'.os.inodes n).length
  sized : 0 ≤ c'.fileSize n ∧ c'.fileSize n < 2 ^ 63

theorem Touches.linked {c c' : Client B P} {n : ℕ} (h : Touches c c' n) (m : ℕ) :
    c'.Linked m ↔ c.Linked m := by
  rw [Linked, Linked, h.names]

theorem Touches.held {c c' : Client B P} {n m : ℕ} (h : Touches c c' n) (hm : m ≠ n) (k : Key) :
    c'.held m k = c.held m k :=
  held_congr (h.handles m hm) (h.linked m) (h.inodes m hm) k

theorem Regular.touch {c c' : Client B P} {n : ℕ} (hc : c.Regular) (h : Touches c c' n) :
    c'.Regular := by
  refine ⟨?_, ?_, ?_, fun fh ctx' hctx' => ?_, ?_, fun m hm => ?_, fun m hm => ?_⟩
  · rw [h.names, h.nextIno]
    exact hc.named
  · rw [h.names]
    exact hc.plain
  · rw [h.names]
    exact hc.single
  · obtain ⟨ctx, hctx, hfd, hino⟩ := h.contexts fh ctx' hctx'
    obtain ⟨hfh, hlt, hn⟩ := hc.opened fh ctx hctx
    have := h.nextFd
    rw [h.nextFh, h.nextIno, hino, ← hfd]
    exact ⟨hfh, by omega, hn⟩
  · rintro m fh fh' ctx₁ ctx₂ ⟨h₁, hino₁⟩ ⟨h₂, hino₂⟩
    obtain ⟨ctx₁', hctx₁, -, heq₁⟩ := h.contexts fh ctx₁ h₁
    obtain ⟨ctx₂', hctx₂, -, heq₂⟩ := h.contexts fh' ctx₂ h₂
    exact hc.alone m fh fh' ctx₁' ctx₂' ⟨hctx₁, heq₁.symm.trans hino₁⟩
      ⟨hctx₂, heq₂.symm.trans hino₂⟩
  · by_cases hmn : m = n
    · exact hmn ▸ h.header
    · rw [h.inodes m hmn]
      exact hc.header m (h.nextIno ▸ hm)
  · by_cases hmn : m = n
    · exact hmn ▸ h.sized
    · rw [fileSize_congr (h.handles m hmn) (h.inodes m hmn)]
      exact hc.sized m (h.nextIno ▸ hm)

/-- The content of a file and the size in the context of its handle change. -/
theorem Regular.touches_resize {c : Client B P} (hc : c.Regular) {n fh : ℕ} {ctx : FileContext}
    (h : c.HandleOn n fh ctx) {f : ByteFile} (hf : 16 ≤ f.length) {s : ℤ} (h₀ : 0 ≤ s)
    (h₁ : s < 2 ^ 63) (store : B) :
    Touches c ⟨c.os.setContent n f, update c.contexts fh (some ⟨ctx.fd, s⟩), c.nextFh, store⟩ n ∧
      fileSize ⟨c.os.setContent n f, update c.contexts fh (some ⟨ctx.fd, s⟩), c.nextFh, store⟩ n =
        s := by
  set c' : Client B P :=
    ⟨c.os.setContent n f, update c.contexts fh (some ⟨ctx.fd, s⟩), c.nextFh, store⟩ with hc'
  have hcontexts : ∀ fh' ctx', c'.contexts fh' = some ctx' →
      (fh' = fh ∧ ctx' = ⟨ctx.fd, s⟩) ∨ (fh' ≠ fh ∧ c.contexts fh' = some ctx') := by
    intro fh' ctx' hctx'
    simp only [hc', update_apply] at hctx'
    split_ifs at hctx' with heq
    · exact Or.inl ⟨heq, (Option.some.inj hctx').symm⟩
    · exact Or.inr ⟨heq, hctx'⟩
  have hopen : c'.HandleOn n fh ⟨ctx.fd, s⟩ := ⟨by simp [hc'], h.2⟩
  have hsize : c'.fileSize n = s := by
    refine Client.fileSize_open (fun fh' ctx' h' => ?_) hopen
    rcases hcontexts fh' ctx' h'.1 with ⟨heq, -⟩ | ⟨-, hctx'⟩
    · exact heq
    · exact hc.alone n fh' fh ctx' ctx ⟨hctx', h'.2⟩ h
  refine ⟨⟨rfl, rfl, le_rfl, rfl, fun fh' ctx' hctx' => ?_, fun m hm => ?_,
    fun m hm => by simp [hc', hm], by simpa [hc'] using hf, by rw [hsize]; exact ⟨h₀, h₁⟩⟩, hsize⟩
  · rcases hcontexts fh' ctx' hctx' with ⟨rfl, rfl⟩ | ⟨-, hctx'⟩
    · exact ⟨ctx, h.1, rfl, rfl⟩
    · exact ⟨ctx', hctx', rfl, rfl⟩
  · -- the handle is open on no other file
    funext fh' ctx'
    refine propext ⟨fun h' => ?_, fun h' => ⟨?_, h'.2⟩⟩
    · rcases hcontexts fh' ctx' h'.1 with ⟨rfl, rfl⟩ | ⟨-, hctx'⟩
      · exact (hm (Option.some.inj (h'.2.symm.trans h.2))).elim
      · exact ⟨hctx', h'.2⟩
    · have hne : fh' ≠ fh := by
        rintro rfl
        rw [← h.ctx_eq ⟨h.1, h.2⟩, Option.some.inj (h.1.symm.trans h'.1)] at h
        exact hm (Option.some.inj (h'.2.symm.trans h.2))
      simpa [hc', hne] using h'.1

/-- The content of a file changes through a descriptor that is closed again. -/
theorem Regular.touches_path {c : Client B P} (hc : c.Regular) {n : ℕ} {f : ByteFile}
    (hf : 16 ≤ f.length) (hn : n < c.os.nextIno)
    (hsized : c.Closed n → 0 ≤ headerSize f ∧ headerSize f < 2 ^ 63) (store : B) :
    Touches c { c with
      os := ((c.os.attach n).1.setContent n f).close c.os.nextFd, store := store } n ∧
    HandleOn { c with
      os := ((c.os.attach n).1.setContent n f).close c.os.nextFd,
      store := store } = c.HandleOn := by
  set os := ((c.os.attach n).1.setContent n f).close c.os.nextFd with hos
  have hino : ∀ fh ctx, c.contexts fh = some ctx → os.ino ctx.fd = c.os.ino ctx.fd := by
    intro fh ctx hctx
    have hlt := (hc.opened fh ctx hctx).2.1
    rw [hos, Os.close_ino, if_neg hlt.ne, Os.setContent_ino, Os.attach_ino, if_neg hlt.ne]
  have hhandles : HandleOn { c with os := os, store := store } = c.HandleOn := by
    funext m fh ctx
    refine propext ⟨fun h => ⟨h.1, ?_⟩, fun h => ⟨h.1, ?_⟩⟩
    · rw [← hino fh ctx h.1]
      exact h.2
    · rw [← h.2]
      exact hino fh ctx h.1
  have hinodes : os.inodes = update c.os.inodes n f := rfl
  refine ⟨⟨rfl, rfl, Nat.le_succ _, rfl, fun fh ctx hctx => ⟨ctx, hctx, rfl, hino fh ctx hctx⟩,
    fun m _ => congrFun hhandles m, fun m hm => ?_, ?_, ?_⟩, hhandles⟩
  · simp only [hinodes, update_of_ne hm]
  · simpa only [hinodes, update_self] using hf
  · by_cases hclosed : c.Closed n
    · rw [fileSize_closed (by rw [Closed, hhandles]; exact hclosed)]
      simpa only [hinodes, update_self] using hsized hclosed
    · simp only [Closed, not_forall, not_not] at hclosed
      obtain ⟨fh, ctx, h⟩ := hclosed
      have h' : HandleOn { c with os := os, store := store } n fh ctx := by rw [hhandles]; exact h
      rw [Client.fileSize_open (fun fh' ctx' h'' => ?_) h', ← hc.fileSize_open h]
      · exact hc.sized n hn
      · rw [hhandles] at h''
        exact hc.alone n fh' fh ctx' ctx h'' h

/-- The handle of a file is closed, and the size in its context goes to the header. -/
theorem Regular.touches_release {c : Client B P} (hc : c.Regular) {n fh : ℕ} {ctx : FileContext}
    (h : c.HandleOn n fh ctx) {f : ByteFile} (hf : 16 ≤ f.length)
    (hsize : headerSize f = ctx.stSize) :
    Touches c ⟨(c.os.setContent n f).close ctx.fd, update c.contexts fh none, c.nextFh, c.store⟩ n ∧
      fileSize ⟨(c.os.setContent n f).close ctx.fd, update c.contexts fh none, c.nextFh,
        c.store⟩ n = ctx.stSize := by
  set c' : Client B P :=
    ⟨(c.os.setContent n f).close ctx.fd, update c.contexts fh none, c.nextFh, c.store⟩ with hc'
  have hcontexts : ∀ fh' ctx', c'.contexts fh' = some ctx' →
      fh' ≠ fh ∧ c.contexts fh' = some ctx' := by
    intro fh' ctx' hctx'
    simp only [hc', update_apply] at hctx'
    split_ifs at hctx' with heq
    exact ⟨heq, hctx'⟩
  -- the descriptors of the other handles stay open
  have hino : ∀ fh' ctx', fh' ≠ fh → c.contexts fh' = some ctx' →
      c'.os.ino ctx'.fd = c.os.ino ctx'.fd := by
    intro fh' ctx' hne hctx'
    have hfd : ctx'.fd ≠ ctx.fd := fun heq =>
      hne (hc.alone n fh' fh ctx' ctx ⟨hctx', by rw [heq, h.2]⟩ h)
    rw [hc', Os.close_ino, if_neg hfd, Os.setContent_ino]
  have hclosed : c'.Closed n := by
    rintro fh' ctx' ⟨hctx', hino'⟩
    obtain ⟨hne, hctx⟩ := hcontexts fh' ctx' hctx'
    exact hne (hc.alone n fh' fh ctx' ctx ⟨hctx, (hino fh' ctx' hne hctx).symm.trans hino'⟩ h)
  have hinodes : c'.os.inodes = update c.os.inodes n f := rfl
  have hsize' : c'.fileSize n = ctx.stSize := by
    rw [fileSize_closed hclosed, hinodes, update_self, hsize]
  have hn : n < c.os.nextIno := by
    obtain ⟨-, -, m, hm, hino⟩ := hc.opened fh ctx h.1
    rwa [← Option.some.inj (hino.symm.trans h.2)]
  refine ⟨⟨rfl, rfl, le_rfl, rfl, fun fh' ctx' hctx' => ?_, fun m hm => ?_, fun m hm => ?_, ?_, ?_⟩,
    hsize'⟩
  · obtain ⟨hne, hctx⟩ := hcontexts fh' ctx' hctx'
    exact ⟨ctx', hctx, rfl, hino fh' ctx' hne hctx⟩
  · funext fh' ctx'
    refine propext ⟨fun h' => ?_, fun h' => ?_⟩
    · obtain ⟨hne, hctx⟩ := hcontexts fh' ctx' h'.1
      exact ⟨hctx, (hino fh' ctx' hne hctx).symm.trans h'.2⟩
    · have hne : fh' ≠ fh := by
        rintro rfl
        obtain rfl : ctx = ctx' := Option.some.inj (h.1.symm.trans h'.1)
        exact hm (Option.some.inj (h'.2.symm.trans h.2))
      exact ⟨by simpa [hc', hne] using h'.1, (hino fh' ctx' hne h'.1).trans h'.2⟩
  · rw [hinodes, update_of_ne hm]
  · rw [hinodes, update_self]
    exact hf
  · rw [hsize', ← hc.fileSize_open h]
    exact hc.sized n hn

/-! ## Requests that open a file -/

theorem handleOn_alloc {c : Client B P} (hc : c.Regular) {os : Os P} {n : ℕ}
    (hfds : os.fds = update c.os.fds c.os.nextFd (some ⟨n, 0⟩)) (s : ℤ) {m fh : ℕ}
    {ctx : FileContext} :
    (alloc { c with os := os } ⟨c.os.nextFd, s⟩).HandleOn m fh ctx ↔
      (m = n ∧ fh = c.nextFh ∧ ctx = ⟨c.os.nextFd, s⟩) ∨ c.HandleOn m fh ctx := by
  have hino : ∀ fd : ℤ, os.ino fd = if fd = c.os.nextFd then some n else c.os.ino fd := by
    intro fd
    simp only [Os.ino, hfds, update_apply]
    split_ifs <;> rfl
  have hold : ∀ ctx, c.contexts fh = some ctx → fh ≠ c.nextFh ∧ ctx.fd ≠ c.os.nextFd :=
    fun ctx hctx => ⟨(hc.opened fh ctx hctx).1.ne, (hc.opened fh ctx hctx).2.1.ne⟩
  simp only [HandleOn, alloc_contexts, alloc_os, hino, update_apply]
  constructor
  · rintro ⟨hctx, hm⟩
    split_ifs at hctx with hfh
    · obtain rfl := Option.some.inj hctx
      rw [if_pos rfl] at hm
      exact Or.inl ⟨(Option.some.inj hm).symm, hfh, rfl⟩
    · rw [if_neg (hold ctx hctx).2] at hm
      exact Or.inr ⟨hctx, hm⟩
  · rintro (⟨rfl, rfl, rfl⟩ | ⟨hctx, hm⟩)
    · simp
    · rw [if_neg (hold ctx hctx).1, if_neg (hold ctx hctx).2]
      exact ⟨hctx, hm⟩

/-- A file that was closed, or is new, is opened with its size in the context. -/
theorem Regular.opens_file {c : Client B P} (hc : c.Regular) (os : Os P) {n : ℕ} {s : ℤ}
    (hfds : os.fds = update c.os.fds c.os.nextFd (some ⟨n, 0⟩))
    (hnextFd : os.nextFd = c.os.nextFd + 1) (hclosed : c.Closed n) (hn : n < os.nextIno)
    (hnext : c.os.nextIno ≤ os.nextIno) (hnew : ∀ m < os.nextIno, m ≠ n → m < c.os.nextIno)
    (hinodes : ∀ m, m ≠ n → os.inodes m = c.os.inodes m) (hf : 16 ≤ (os.inodes n).length)
    (hs : 0 ≤ s ∧ s < 2 ^ 63) (hnamed : ∀ p m, os.names p = some (.file m) → m < os.nextIno)
    (hplain : ∀ p q, os.names p ≠ some (.symlink q))
    (hsingle : ∀ p q m, os.names p = some (.file m) → os.names q = some (.file m) → p = q) :
    (alloc { c with os := os } ⟨c.os.nextFd, s⟩).Regular ∧
      (alloc { c with os := os } ⟨c.os.nextFd, s⟩).fileSize n = s ∧
      ∀ m, m ≠ n → (alloc { c with os := os } ⟨c.os.nextFd, s⟩).HandleOn m = c.HandleOn m := by
  set c' := alloc { c with os := os } ⟨c.os.nextFd, s⟩ with hc'
  have hiff : ∀ {m fh ctx}, c'.HandleOn m fh ctx ↔
      (m = n ∧ fh = c.nextFh ∧ ctx = ⟨c.os.nextFd, s⟩) ∨ c.HandleOn m fh ctx :=
    handleOn_alloc hc hfds s
  have hself : ∀ fh ctx, c'.HandleOn n fh ctx → fh = c.nextFh ∧ ctx = ⟨c.os.nextFd, s⟩ :=
    fun fh ctx h => (hiff.1 h).elim (fun h => h.2) fun h => (hclosed fh ctx h).elim
  have hother : ∀ m, m ≠ n → c'.HandleOn m = c.HandleOn m := by
    intro m hm
    funext fh ctx
    exact propext (hiff.trans (or_iff_right fun h => hm h.1))
  have hsize : c'.fileSize n = s :=
    Client.fileSize_open (fun fh ctx h => (hself fh ctx h).1) (hiff.2 (Or.inl ⟨rfl, rfl, rfl⟩))
  refine ⟨⟨hnamed, hplain, hsingle, fun fh ctx hctx => ?_, fun m fh fh' ctx ctx' h h' => ?_,
    fun m hm => ?_, fun m hm => ?_⟩, hsize, hother⟩
  · simp only [hc', alloc_contexts, update_apply] at hctx
    simp only [hc', alloc_nextFh, alloc_os, hnextFd]
    split_ifs at hctx with hfh
    · obtain rfl := Option.some.inj hctx
      refine ⟨by omega, by simp, n, hn, ?_⟩
      simp [Os.ino, hfds]
    · obtain ⟨hlt, hfd, m, hm, hino⟩ := hc.opened fh ctx hctx
      refine ⟨by omega, by push_cast; omega, m, by omega, ?_⟩
      simpa [Os.ino, hfds, hfd.ne] using hino
  · by_cases hm : m = n
    · subst hm
      exact (hself fh ctx h).1.trans (hself fh' ctx' h').1.symm
    · rw [hother m hm] at h h'
      exact hc.alone m fh fh' ctx ctx' h h'
  · by_cases hmn : m = n
    · exact hmn ▸ hf
    · simp only [hc', alloc_os, hinodes m hmn]
      exact hc.header m (hnew m hm hmn)
  · by_cases hmn : m = n
    · rw [hmn, hsize]
      exact hs
    · rw [fileSize_congr (hother m hmn) (hinodes m hmn)]
      exact hc.sized m (hnew m hm hmn)

/-- The names change. -/
theorem Regular.of_names {c : Client B P} (hc : c.Regular) (os : Os P)
    (hinodes : os.inodes = c.os.inodes) (hnext : os.nextIno = c.os.nextIno)
    (hfds : os.fds = c.os.fds) (hnextFd : os.nextFd = c.os.nextFd)
    (hnamed : ∀ p m, os.names p = some (.file m) → m < os.nextIno)
    (hplain : ∀ p q, os.names p ≠ some (.symlink q))
    (hsingle : ∀ p q m, os.names p = some (.file m) → os.names q = some (.file m) → p = q) :
    Regular { c with os := os } ∧ HandleOn { c with os := os } = c.HandleOn := by
  have hino : os.ino = c.os.ino := by
    funext fd
    simp only [Os.ino, hfds]
  have hhandles : HandleOn { c with os := os } = c.HandleOn := by
    funext m fh ctx
    simp only [HandleOn, hino]
  refine ⟨⟨hnamed, hplain, hsingle, ?_, ?_, ?_, fun m hm => ?_⟩, hhandles⟩
  · simp only [hino, hnextFd, hnext]
    exact hc.opened
  · rw [hhandles]
    exact hc.alone
  · simp only [hinodes, hnext]
    exact hc.header
  · rw [fileSize_congr (congrFun hhandles m) (by simp only [hinodes])]
    exact hc.sized m (hnext ▸ hm)

end Client

end Agilefs
