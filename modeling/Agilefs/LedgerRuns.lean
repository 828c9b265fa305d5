import Agilefs.Ledger
import Agilefs.FileSize

/-!
# The ledger over runs

A client is `Balanced` if as many puts of each key are outstanding as the files refer to it.
The requests do not keep this : a second new block in one write deletes the key put for the
first, entries left behind by a truncation come back when the file grows, a rename over a file
deletes none of its keys, and a path is truncated by the size in the header, also if the file is
open and has another.

`balanced_of_kept` : a run on regular files is balanced throughout if none of its requests does
one of these (`Kept`). `Regular.step` says what each request keeps.
-/

namespace Agilefs

open CInt Posix Function ByteFile

variable {B P : Type*}

namespace Client

/-! ## Balance -/

/-- As many puts of each key are outstanding as the files refer to it. -/
def Balanced (c : Client (B × (Key → ℕ)) P) : Prop :=
  ∀ k, c.store.2 k = c.references k

/-- The request puts and deletes what it makes the files refer to and no longer refer to. -/
def Kept (doHash : List UInt8 → Key) (st : BlockStore B) (c : Client (B × (Key → ℕ)) P) :
    FuseOp P → Prop
  | .write fh buf offset junk => ∀ n ctx, c.HandleOn n fh ctx →
      if buf = [] then c.Linked n →
        NoEntry (c.os.inodes n) (blocks ctx.stSize) (blocks offset)
      else c.Linked n ∧
        WriteKept doHash st (c.os.inodes n) (blocks ctx.stSize) c.store.2 buf offset junk
  | .truncate p size => ∀ n, c.os.names p = some (.file n) →
      let f := c.os.inodes n
      (c.Closed n → TruncKept f (blocks (headerSize f)) c.store.2 size (headerSize f) ∧
        NoEntry f (blocks (headerSize f)) (blocks size)) ∧
      (¬c.Closed n → TruncKept f 0 c.store.2 size (headerSize f))
  | .ftruncate fh size => ∀ n ctx, c.HandleOn n fh ctx →
      let f := c.os.inodes n
      (c.Linked n → TruncKept f (blocks ctx.stSize) c.store.2 size ctx.stSize ∧
        NoEntry f (blocks ctx.stSize) (blocks size)) ∧
      (¬c.Linked n → TruncKept f 0 c.store.2 size ctx.stSize)
  | .rename p q => ∀ m, p ≠ q → c.os.names q = some (.file m) →
      NoEntry (c.os.inodes m) 0 (blocks (c.fileSize m))
  | .unlink p => ∀ n, c.os.names p = some (.file n) →
      let f := c.os.inodes n
      TruncKept f (blocks (c.fileSize n)) c.store.2 0 (headerSize f) ∧
        NoEntry f (blocks (headerSize f)) (blocks (c.fileSize n))
  | _ => True

/-- The client stays regular, and balanced if the request is `Kept`. -/
def Next (doHash : List UInt8 → Key) (st : BlockStore B) (c : Client (B × (Key → ℕ)) P)
    (op : FuseOp P) (c' : Client (B × (Key → ℕ)) P) : Prop :=
  c'.Regular ∧ (c.Balanced → c.Kept doHash st op → c'.Balanced)

section Requests

variable {st : BlockStore B} {doHash : List UInt8 → Key} {c c' : Client (B × (Key → ℕ)) P}
  {p q : P} {n fh : ℕ} {ctx : FileContext} {ret : ℤ}

/-- The references of one file change as the outstanding puts do. -/
theorem Balanced.congr (hb : c.Balanced) (hn : n < c.os.nextIno)
    (hnext : c'.os.nextIno = c.os.nextIno) (hother : ∀ m, m ≠ n → ∀ k, c'.held m k = c.held m k)
    (hself : ∀ k, c'.store.2 k + c.held n k = c.store.2 k + c'.held n k) : c'.Balanced := by
  intro k
  have h₁ := references_congr hn hnext fun m hm => hother m hm k
  have h₂ := hself k
  have h₃ := hb k
  have h₄ := held_le_references c hn k
  omega

theorem Touches.balanced (h : Touches c c' n) (hb : c.Balanced) (hn : n < c.os.nextIno)
    (hself : ∀ k, c'.store.2 k + c.held n k = c.store.2 k + c'.held n k) : c'.Balanced :=
  hb.congr hn h.nextIno (fun _ hm => h.held hm) hself

/-- What the blocks of a file with a name count for is outstanding. -/
theorem Balanced.cover (hb : c.Balanced) (hn : n < c.os.nextIno) (hl : c.Linked n) (k : Key) :
    entryCount (c.os.inodes n) (blocks (c.fileSize n)) k ≤ c.store.2 k := by
  rw [hb k, ← held_linked hl]
  exact held_le_references c hn k

theorem blocks_max (x y : ℤ) : blocks (max x y) = max (blocks x) (blocks y) := by
  unfold blocks
  omega

theorem Regular.handle (hc : c.Regular) (hctx : c.contexts fh = some ctx) :
    ∃ n < c.os.nextIno, c.HandleOn n fh ctx ∧ 0 ≤ ctx.stSize ∧ ctx.stSize < 2 ^ 63 := by
  obtain ⟨-, -, n, hn, hino⟩ := hc.opened fh ctx hctx
  have hon : c.HandleOn n fh ctx := ⟨hctx, hino⟩
  have hsized := hc.sized n hn
  rw [hc.fileSize_open hon] at hsized
  exact ⟨n, hn, hon, hsized⟩

/-! ## Writing -/

theorem writeLoop_nil {os : Os P} {fd : ℤ} {store : B × (Key → ℕ)} {junk : Key} {offset : ℤ}
    {w : WriteState (B × (Key → ℕ)) P} (h : writeLoop doHash st.counted {} fd [] offset
      ⟨os, store, junk, offset, true⟩ = some w) : w = ⟨os, store, junk, offset, true⟩ := by
  simpa [writeLoop, Loop.run, eq_comm] using h

theorem Regular.write (hc : c.Regular) {buf : List UInt8} {offset : ℤ} {junk : Key}
    (h₀ : 0 ≤ offset) (h₁ : offset + buf.length < 2 ^ 63)
    (hs : c.fuseWrite doHash st.counted {} fh buf offset junk = some (c', some ret)) :
    Next doHash st c (.write fh buf offset junk) c' := by
  obtain ⟨ctx, hctx, -⟩ := Option.bind_eq_some_iff.1 hs
  obtain ⟨n, hn, hon, hsized⟩ := hc.handle hctx
  obtain ⟨w, hw, hok, rfl⟩ := fuseWrite_some hctx hs
  obtain ⟨f, hos, hlen, -⟩ := writeLoop_content hon.2 h₀ h₁ hw
  have hf : 16 ≤ f.length := (hc.header n hn).trans hlen
  rw [grownSize_eq hsized.1 hsized.2 (by omega) h₁, hos]
  obtain ⟨htouch, hsize⟩ := hc.touches_resize hon hf
    (s := max ctx.stSize (offset + buf.length)) (by omega) (by omega) w.store
  refine ⟨hc.touch htouch, fun hb hk => htouch.balanced hb hn fun k => ?_⟩
  have hkept := hk n ctx hon
  have hcover := hb.cover hn
  rw [hc.fileSize_open hon] at hcover
  by_cases hbuf : buf = []
  · subst hbuf
    obtain rfl := writeLoop_nil hw
    rw [if_pos rfl] at hkept
    have hcontent : f = c.os.inodes n := by
      have := congrFun (congrArg Os.inodes hos) n
      simpa using this.symm
    subst hcontent
    by_cases hl : c.Linked n
    · rw [held_linked hl, held_linked ((htouch.linked n).2 hl), hc.fileSize_open hon, hsize,
        blocks_max]
      simp only [Os.setContent_self, List.length_nil, Nat.cast_zero, add_zero]
      rw [entryCount_max (hkept hl)]
    · rw [held_unlinked hl, held_unlinked (mt (htouch.linked n).1 hl)]
  · rw [if_neg hbuf] at hkept
    obtain ⟨hl, hkept⟩ := hkept
    have hled := writeLoop_ledger hon.2 hbuf h₀ h₁ (hcover hl) hkept hok hw k
    rw [held_linked hl, held_linked ((htouch.linked n).2 hl), hc.fileSize_open hon, hsize,
      blocks_max]
    rw [hos] at hled
    exact hled

/-! ## Truncation -/

/-- The loop of a truncation to `size` of a file that has its size in `stSize`, where no entry
comes back. -/
theorem truncLoop_balances {os : Os P} {fd : ℤ} (hino : os.ino fd = some n) {size stSize : ℤ}
    (hsize : 0 ≤ size) {store : B × (Key → ℕ)}
    (hcover : ∀ k, entryCount (os.inodes n) (blocks stSize) k ≤ store.2 k)
    (hkept : TruncKept (os.inodes n) (blocks stSize) store.2 size stSize)
    (hnone : NoEntry (os.inodes n) (blocks stSize) (blocks size))
    {t : TruncState (B × (Key → ℕ))}
    (hrun : truncLoop st.counted os {} fd stSize ⟨store, .zero, roundUp size⟩ = some t) (k : Key) :
    t.store.2 k + entryCount (os.inodes n) (blocks stSize) k =
      store.2 k + entryCount (os.inodes n) (blocks size) k := by
  have hled := truncLoop_ledger hino hsize hcover hkept hrun k
  rw [min_eq_left (le_max_right _ _)] at hled
  rw [hled]
  rcases le_total (blocks size) (blocks stSize) with hle | hle
  · rw [min_eq_right hle]
  · rw [min_eq_left hle, entryCount_noEntry hle hnone]

/-- The loop of a truncation that takes away nothing. -/
theorem truncLoop_balances_zero {os : Os P} {fd : ℤ} (hino : os.ino fd = some n) {size stSize : ℤ}
    (hsize : 0 ≤ size) {store : B × (Key → ℕ)}
    (hkept : TruncKept (os.inodes n) 0 store.2 size stSize) {t : TruncState (B × (Key → ℕ))}
    (hrun : truncLoop st.counted os {} fd stSize ⟨store, .zero, roundUp size⟩ = some t) (k : Key) :
    t.store.2 k = store.2 k := by
  have hled := truncLoop_ledger hino hsize (fun _ => Nat.zero_le _) hkept hrun k
  simpa [entryCount] using hled

theorem entryCount_writeHeader (f : ByteFile) (x : ℤ) (m : ℕ) (k : Key) :
    entryCount (f.pwrite (offBytes x) 0) m k = entryCount f m k :=
  entryCount_congr (fun b _ => entryBytes_writeHeader f x b) k

theorem length_writeHeader {f : ByteFile} (h : 16 ≤ f.length) (x : ℤ) :
    16 ≤ (f.pwrite (offBytes x) 0).length := by
  rw [length_pwrite f (offBytes_ne_nil x)]
  omega

theorem Regular.ftruncate (hc : c.Regular) {size : ℤ} (h₀ : 0 ≤ size) (h₁ : size < 2 ^ 63)
    (hs : c.fuseFtruncate st.counted {} fh size = some (c', some ret)) :
    Next doHash st c (.ftruncate fh size) c' := by
  obtain ⟨ctx, hctx, -⟩ := Option.bind_eq_some_iff.1 hs
  obtain ⟨n, hn, hon, hsized⟩ := hc.handle hctx
  rw [fuseFtruncate_eq _ hctx hon.2] at hs
  obtain ⟨t, ht, hres⟩ := Option.map_eq_some_iff.1 hs
  obtain ⟨rfl, -⟩ := Prod.mk.inj hres
  obtain ⟨htouch, hsize⟩ := hc.touches_resize hon
    (length_writeHeader (hc.header n hn) size) h₀ h₁ t.store
  refine ⟨hc.touch htouch, fun hb hk => htouch.balanced hb hn fun k => ?_⟩
  obtain ⟨hlinked, hunlinked⟩ := hk n ctx hon
  by_cases hl : c.Linked n
  · obtain ⟨hkept, hnone⟩ := hlinked hl
    have hcover := hb.cover hn hl
    rw [hc.fileSize_open hon] at hcover
    rw [held_linked hl, held_linked ((htouch.linked n).2 hl), hc.fileSize_open hon, hsize]
    simp only [Os.setContent_inodes, update_self, entryCount_writeHeader]
    exact truncLoop_balances hon.2 h₀ hcover hkept hnone ht k
  · rw [held_unlinked hl, held_unlinked (mt (htouch.linked n).1 hl)]
    simp only [add_zero]
    exact truncLoop_balances_zero hon.2 h₀ (hunlinked hl) ht k

/-- What `fuse_truncate` does to a file. -/
theorem Regular.fuseTruncate_some (hc : c.Regular) (hp : c.os.names p = some (.file n)) {size : ℤ}
    {r : Option ℤ} (hs : c.fuseTruncate st.counted {} p size = some (c', r)) :
    ∃ t, truncLoop st.counted (c.os.attach n).1 {} c.os.nextFd (headerSize (c.os.inodes n))
        ⟨c.store, .zero, roundUp size⟩ = some t ∧
      c' = { c with
        os := ((c.os.attach n).1.setContent n
          ((c.os.inodes n).pwrite (offBytes size) 0)).close c.os.nextFd,
        store := t.store } := by
  have hheader := hc.header n (hc.named p n hp)
  rw [fuseTruncate_eq _ (Os.lookup_file hp), offLoad_header (by omega)] at hs
  obtain ⟨t, ht, hres⟩ := Option.map_eq_some_iff.1 hs
  exact ⟨t, ht, (Prod.mk.inj hres).1.symm⟩

/-- The header is written through a descriptor that is closed again. -/
theorem Regular.touches_header (hc : c.Regular) (hn : n < c.os.nextIno) {size : ℤ} (h₀ : 0 ≤ size)
    (h₁ : size < 2 ^ 63) (store : B × (Key → ℕ)) :
    Touches c { c with
      os := ((c.os.attach n).1.setContent n
        ((c.os.inodes n).pwrite (offBytes size) 0)).close c.os.nextFd, store := store } n ∧
    HandleOn { c with
      os := ((c.os.attach n).1.setContent n
        ((c.os.inodes n).pwrite (offBytes size) 0)).close c.os.nextFd,
      store := store } = c.HandleOn := by
  refine hc.touches_path (length_writeHeader (hc.header n hn) size) hn (fun _ => ?_) store
  rw [headerSize_writeHeader _ (by omega) h₁]
  exact ⟨h₀, h₁⟩

theorem Regular.truncate (hc : c.Regular) {size : ℤ} (h₀ : 0 ≤ size) (h₁ : size < 2 ^ 63)
    (hs : c.fuseTruncate st.counted {} p size = some (c', some ret)) :
    Next doHash st c (.truncate p size) c' := by
  obtain ⟨n, hp⟩ : ∃ n, c.os.names p = some (.file n) := by
    cases hl : c.os.lookup p with
    | none => simp [fuseTruncate, Os.openExisting, hl] at hs
    | some n => exact ⟨n, hc.lookup_eq_some.1 hl⟩
  have hn := hc.named p n hp
  have hl : c.Linked n := ⟨p, hp⟩
  obtain ⟨t, ht, rfl⟩ := hc.fuseTruncate_some hp hs
  obtain ⟨htouch, hhandles⟩ := hc.touches_header hn h₀ h₁ t.store
  have hino := c.os.attach_ino_self n
  refine ⟨hc.touch htouch, fun hb hk => htouch.balanced hb hn fun k => ?_⟩
  obtain ⟨hclosed, hopen⟩ := hk n hp
  rw [held_linked hl, held_linked ((htouch.linked n).2 hl)]
  have hcontent : (((c.os.attach n).1.setContent n
      ((c.os.inodes n).pwrite (offBytes size) 0)).close c.os.nextFd).inodes n =
      (c.os.inodes n).pwrite (offBytes size) 0 := update_self ..
  simp only [hcontent, entryCount_writeHeader]
  by_cases hcl : c.Closed n
  · obtain ⟨hkept, hnone⟩ := hclosed hcl
    have hcover := hb.cover hn hl
    rw [fileSize_closed hcl] at hcover
    rw [fileSize_closed hcl, fileSize_closed (by rwa [Closed, hhandles]), hcontent,
      headerSize_writeHeader _ (by omega) h₁]
    exact truncLoop_balances hino h₀ hcover hkept hnone ht k
  · -- the size in the context stays
    have hsame := truncLoop_balances_zero hino h₀ (hopen hcl) ht k
    rw [fileSize_of_handles hcl (congrFun hhandles n)]
    omega

/-! ## Names -/

/-- No file refers to other keys than before. -/
theorem Balanced.of_held (hb : c.Balanced) (hnext : c'.os.nextIno = c.os.nextIno)
    (hstore : c'.store = c.store) (hheld : ∀ m k, c'.held m k = c.held m k) : c'.Balanced := by
  intro k
  rw [hstore, hb k, references, references, hnext]
  exact Finset.sum_congr rfl fun m _ => (hheld m k).symm

variable [DecidableEq P]

theorem update_none {names : P → Option (Node P)} {x : Node P} :
    update names p none q = some x ↔ q ≠ p ∧ names q = some x := by
  by_cases h : q = p <;> simp [h]

theorem Regular.unlink (hc : c.Regular)
    (hs : c.fuseUnlink st.counted {} p = some (c', some ret)) :
    Next doHash st c (.unlink p) c' := by
  obtain ⟨⟨c₁, r⟩, hs₁, hres⟩ := Option.map_eq_some_iff.1 hs
  have hfails : ∀ x, c.os.names p = x → (x = none ∨ x = some .dir) → False := by
    rintro x hp hx
    have hlook : c.os.lookup p = none := by
      rcases hx with rfl | rfl <;> simp [Os.lookup, Os.resolve, hp]
    obtain rfl : c = c₁ := by
      simpa [fuseTruncate, Os.openExisting, hlook] using congrArg (Option.map Prod.fst) hs₁
    rcases hx with rfl | rfl <;> simp [Os.unlink, hp] at hres
  cases hp : c.os.names p with
  | none => exact (hfails _ hp (Or.inl rfl)).elim
  | some x =>
    cases x with
    | symlink q => exact (hc.plain p q hp).elim
    | dir => exact (hfails _ hp (Or.inr rfl)).elim
    | file n =>
      have hn := hc.named p n hp
      obtain ⟨t, ht, rfl⟩ := hc.fuseTruncate_some hp hs₁
      obtain ⟨htouch, hhandles⟩ :=
        hc.touches_header hn (le_refl (0 : ℤ)) (by decide) t.store
      set os := (((c.os.attach n).1.setContent n
        ((c.os.inodes n).pwrite (offBytes 0) 0)).close c.os.nextFd) with hos
      have hunlink : os.unlink p = some { os with names := update c.os.names p none } := by
        have hpos : os.names p = some (.file n) := hp
        simp only [Os.unlink, hpos]
        rfl
      simp only [hunlink, Prod.mk.injEq] at hres
      obtain ⟨rfl, -⟩ := hres
      obtain ⟨hreg, hhandles'⟩ := (hc.touch htouch).of_names
        { os with names := update c.os.names p none } rfl rfl rfl rfl
        (fun q m hq => hc.named q m (update_none.1 hq).2)
        (fun q r hq => hc.plain q r (update_none.1 hq).2)
        (fun q r m hq hr => hc.single q r m (update_none.1 hq).2 (update_none.1 hr).2)
      refine ⟨hreg, fun hb hk => hb.congr hn rfl (fun m hm k => ?_) fun k => ?_⟩
      · refine held_congr (congrFun (hhandles'.trans hhandles) m) ?_ (htouch.inodes m hm) k
        refine exists_congr fun q => update_none.trans (and_iff_right_of_imp fun hq => ?_)
        rintro rfl
        exact hm (by simpa [hp] using hq.symm)
      · obtain ⟨hkept, hnone⟩ := hk n hp
        have hl : c.Linked n := ⟨p, hp⟩
        have hled := truncLoop_ledger (c.os.attach_ino_self n) le_rfl (hb.cover hn hl) hkept ht k
        have hzero : blocks 0 = 0 := rfl
        have hall : entryCount (c.os.inodes n) (blocks (c.fileSize n)) k =
            entryCount (c.os.inodes n) (min (blocks (c.fileSize n))
              (blocks (headerSize (c.os.inodes n)))) k :=
          entryCount_noEntry (min_le_left _ _) (fun b hb hlt => hnone b (by omega) hlt) k
        rw [held_linked hl, held_unlinked, hall]
        · simpa [hzero, entryCount] using hled
        · rintro ⟨q, hq⟩
          obtain ⟨hne, hq⟩ := update_none.1 hq
          exact hne (hc.single q p n hq hp)

/-- What `rename` does to the names. -/
theorem Regular.rename_cases (hc : c.Regular) {os : Os P} (h : c.os.rename p q = some os) :
    (p = q ∧ os = c.os) ∨ ∃ n, p ≠ q ∧ c.os.names p = some (.file n) ∧
      os = { c.os with names := update (update c.os.names q (some (.file n))) p none } := by
  cases hp : c.os.names p with
  | none => simp [Os.rename, hp] at h
  | some x =>
    cases x with
    | symlink r => exact (hc.plain p r hp).elim
    | dir => simp [Os.rename, hp] at h
    | file n =>
      cases hq : c.os.names q with
      | none =>
        obtain rfl : _ = os := by simpa [Os.rename, hp, hq] using h
        refine Or.inr ⟨n, ?_, rfl, rfl⟩
        rintro rfl
        simp [hp] at hq
      | some y =>
        cases y with
        | symlink r => exact (hc.plain q r hq).elim
        | dir => simp [Os.rename, hp, hq] at h
        | file m =>
          have hsame : p = q ↔ p = q ∨ n = m := by
            refine ⟨Or.inl, fun h => h.elim id ?_⟩
            rintro rfl
            exact hc.single p q n hp hq
          simp only [Os.rename, hp, hq, Node.SameFile, decide_eq_true_eq, ← hsame] at h
          split_ifs at h with hpq
          · exact Or.inl ⟨hpq, (Option.some.inj h).symm⟩
          · exact Or.inr ⟨n, hpq, rfl, (Option.some.inj h).symm⟩

/-- The names after a rename of `p` over `q`. -/
theorem update_rename {names : P → Option (Node P)} {r : P} {x y : Node P} :
    update (update names q (some x)) p none r = some y ↔
      r ≠ p ∧ (r = q ∧ y = x ∨ r ≠ q ∧ names r = some y) := by
  rw [update_none, update_apply]
  by_cases hr : r = q <;> simp [hr, eq_comm]

/-- The names stay regular, and the handles stay. -/
theorem Regular.names_rename (hc : c.Regular) (hp : c.os.names p = some (.file n)) :
    let os := { c.os with names := update (update c.os.names q (some (.file n))) p none }
    Regular { c with os := os } ∧ HandleOn { c with os := os } = c.HandleOn := by
  intro os
  -- the only name of the file of `p` is `q` now
  have hmoved : ∀ {r}, os.names r = some (.file n) → r = q := by
    intro r hr
    obtain ⟨hrp, ⟨hrq, -⟩ | ⟨-, hr⟩⟩ := update_rename.1 hr
    · exact hrq
    · exact (hrp (hc.single r p n hr hp)).elim
  have hkept : ∀ {r m}, m ≠ n → os.names r = some (.file m) → c.os.names r = some (.file m) := by
    intro r m hm hr
    obtain ⟨-, ⟨-, hmn⟩ | ⟨-, hr⟩⟩ := update_rename.1 hr
    · exact (hm (Node.file.inj hmn)).elim
    · exact hr
  refine hc.of_names os rfl rfl rfl rfl (fun r m hr => ?_) (fun r s hr => ?_)
    fun r s m hr hs => ?_
  · by_cases hm : m = n
    · exact hm ▸ hc.named p n hp
    · exact hc.named r m (hkept hm hr)
  · obtain ⟨-, ⟨-, hs⟩ | ⟨-, hr⟩⟩ := update_rename.1 hr
    · cases hs
    · exact hc.plain r s hr
  · by_cases hm : m = n
    · subst hm
      exact (hmoved hr).trans (hmoved hs).symm
    · exact hc.single r s m (hkept hm hr) (hkept hm hs)

/-- Only the file at `q` loses its name. -/
theorem exists_rename_iff (hpq : p ≠ q) (hp : c.os.names p = some (.file n)) {m : ℕ}
    (hq : c.os.names q ≠ some (.file m)) :
    (∃ r, update (update c.os.names q (some (.file n))) p none r = some (.file m)) ↔
      c.Linked m := by
  constructor
  · rintro ⟨r, hr⟩
    obtain ⟨-, ⟨-, hmn⟩ | ⟨-, hr⟩⟩ := update_rename.1 hr
    · obtain rfl := Node.file.inj hmn
      exact ⟨p, hp⟩
    · exact ⟨r, hr⟩
  · rintro ⟨r, hr⟩
    by_cases hrp : r = p
    · subst hrp
      obtain rfl : n = m := by simpa [hp] using hr
      exact ⟨q, update_rename.2 ⟨hpq.symm, Or.inl ⟨rfl, rfl⟩⟩⟩
    · refine ⟨r, update_rename.2 ⟨hrp, Or.inr ⟨?_, hr⟩⟩⟩
      rintro rfl
      exact hq hr

theorem Regular.rename (hc : c.Regular) (hs : c.fuseRename p q = (c', some ret)) :
    Next doHash st c (.rename p q) c' := by
  cases hos : c.os.rename p q with
  | none => simp [fuseRename, hos] at hs
  | some os =>
    obtain rfl : _ = c' := by simpa [fuseRename, hos] using congrArg Prod.fst hs
    rcases hc.rename_cases hos with ⟨-, rfl⟩ | ⟨n, hpq, hp, rfl⟩
    · exact ⟨hc, fun hb _ => hb⟩
    obtain ⟨hreg, hhandles⟩ := hc.names_rename (q := q) hp
    refine ⟨hreg, fun hb hk => hb.of_held rfl rfl fun m k => ?_⟩
    by_cases hqm : c.os.names q = some (.file m)
    · -- the file at `q` has no name any more, and had no entry
      have hm : m ≠ n := by
        rintro rfl
        exact hpq (hc.single p q m hp hqm)
      have hzero : entryCount (c.os.inodes m) (blocks (c.fileSize m)) k = 0 :=
        entryCount_noEntry (Nat.zero_le _) (hk m hpq hqm) k
      rw [held_unlinked, held_linked ⟨q, hqm⟩, hzero]
      rintro ⟨r, hr⟩
      obtain ⟨-, ⟨-, hmn⟩ | ⟨hrq, hr⟩⟩ := update_rename.1 hr
      · exact hm (Node.file.inj hmn)
      · exact hrq (hc.single r q m hr hqm)
    · exact held_congr (congrFun hhandles m) (exists_rename_iff hpq hp hqm) rfl k

/-! ## Opening and closing -/

theorem Regular.create (hc : c.Regular) (hs : c.fuseCreate {} p = (c', some ret)) :
    Next doHash st c (.create p) c' := by
  have hfree : c.os.names p = none := by
    by_contra hp
    obtain ⟨x, hx⟩ := Option.ne_none_iff_exists'.1 hp
    simp [fuseCreate, Os.openExcl, hx] at hs
  rw [fuseCreate_eq hfree] at hs
  obtain ⟨rfl, -⟩ := Prod.mk.inj hs
  set os := (c.os.create p).1.setContent c.os.nextIno (List.replicate 16 0) with hos
  have hiff : ∀ {r x}, os.names r = some x ↔
      r = p ∧ x = .file c.os.nextIno ∨ c.os.names r = some x := by
    intro r x
    by_cases hr : r = p <;> simp [hos, hr, hfree, eq_comm]
  have hlt : ∀ {r m}, c.os.names r = some (.file m) → m ≠ c.os.nextIno :=
    fun hr => (hc.named _ _ hr).ne
  have hclosed : c.Closed c.os.nextIno := by
    intro fh ctx h
    obtain ⟨-, -, m, hm, hino⟩ := hc.opened fh ctx h.1
    exact hm.ne (Option.some.inj (hino.symm.trans h.2))
  have hothers : ∀ m, m ≠ c.os.nextIno → os.inodes m = c.os.inodes m := by
    intro m hm
    simp [hos, hm]
  obtain ⟨hreg, hsize, hhandles⟩ := hc.opens_file os (s := 0) rfl rfl hclosed
    (Nat.lt_succ_self _) (Nat.le_succ _)
    (fun m hm hne => lt_of_le_of_ne (Nat.lt_succ_iff.1 hm) hne) hothers
    (by simp [hos]) ⟨le_rfl, by decide⟩
    (fun r m hr => by
      rcases hiff.1 hr with ⟨-, hm⟩ | hr
      · exact (Node.file.inj hm).trans_lt (Nat.lt_succ_self _)
      · exact (hc.named r m hr).trans (Nat.lt_succ_self _))
    (fun r s hr => by
      rcases hiff.1 hr with ⟨-, hm⟩ | hr
      · cases hm
      · exact hc.plain r s hr)
    (fun r s m hr hs => by
      rcases hiff.1 hr with ⟨hrp, hm⟩ | hr <;> rcases hiff.1 hs with ⟨hsp, hm'⟩ | hs
      · exact hrp.trans hsp.symm
      · exact (hlt hs (Node.file.inj hm)).elim
      · exact (hlt hr (Node.file.inj hm')).elim
      · exact hc.single r s m hr hs)
  refine ⟨hreg, fun hb _ k => ?_⟩
  -- the new file refers to nothing
  have hnew : held (alloc { c with os := os } ⟨c.os.nextFd, 0⟩) c.os.nextIno k = 0 := by
    rw [held_linked ⟨p, hiff.2 (Or.inl ⟨rfl, rfl⟩)⟩, hsize]
    rfl
  have hold : ∀ m < c.os.nextIno,
      held (alloc { c with os := os } ⟨c.os.nextFd, 0⟩) m k = c.held m k := by
    intro m hm
    refine held_congr (hhandles m hm.ne) (exists_congr fun r => hiff.trans ?_) (hothers m hm.ne) k
    exact or_iff_right fun h => hm.ne (Node.file.inj h.2)
  have hsum : references (alloc { c with os := os } ⟨c.os.nextFd, 0⟩) k = c.references k := by
    rw [references, references, alloc_os, hos, Os.setContent_nextIno, Os.create_nextIno,
      Finset.sum_range_succ, ← hos, hnew, add_zero]
    exact Finset.sum_congr rfl fun m hm => hold m (Finset.mem_range.1 hm)
  rw [hsum, ← hb k]
  rfl

omit [DecidableEq P] in
theorem Regular.opens (hc : c.Regular) (hclosed : ∀ n, c.os.names p = some (.file n) → c.Closed n)
    {junk : ℤ} (hs : c.fuseOpen {} p junk = (c', some ret)) :
    Next doHash st c (.opens p junk) c' := by
  obtain ⟨n, hp⟩ : ∃ n, c.os.names p = some (.file n) := by
    cases hl : c.os.lookup p with
    | none => simp [fuseOpen, Os.openExisting, hl] at hs
    | some n => exact ⟨n, hc.lookup_eq_some.1 hl⟩
  have hn := hc.named p n hp
  have hcl := hclosed n hp
  have hheader := hc.header n hn
  have hsized := hc.sized n hn
  rw [fuseOpen_eq (Os.lookup_file hp), offLoad_header (by omega)] at hs
  obtain ⟨rfl, -⟩ := Prod.mk.inj hs
  rw [fileSize_closed hcl] at hsized
  obtain ⟨hreg, hsize, hhandles⟩ := hc.opens_file (c.os.attach n).1 rfl rfl hcl hn le_rfl
    (fun _ hm _ => hm) (fun _ _ => rfl) hheader hsized hc.named hc.plain hc.single
  refine ⟨hreg, fun hb _ => hb.of_held rfl rfl fun m k => ?_⟩
  by_cases hm : m = n
  · subst hm
    refine held_of_size ?_ (hsize.trans (fileSize_closed hcl).symm) (fun _ => rfl) k
    exact Iff.rfl
  · exact held_congr (hhandles m hm) Iff.rfl rfl k

omit [DecidableEq P] in
theorem Regular.release (hc : c.Regular) (hs : c.fuseRelease {} fh = some (c', some ret)) :
    Next doHash st c (.release fh) c' := by
  obtain ⟨ctx, hctx, -⟩ := Option.map_eq_some_iff.1 hs
  obtain ⟨n, hn, hon, hsized⟩ := hc.handle hctx
  rw [fuseRelease_eq hctx hon.2] at hs
  obtain ⟨rfl, -⟩ := Prod.mk.inj (Option.some.inj hs)
  obtain ⟨htouch, hsize⟩ := hc.touches_release hon
    (length_writeHeader (hc.header n hn) ctx.stSize)
    (headerSize_writeHeader _ (by omega) hsized.2)
  refine ⟨hc.touch htouch, fun hb _ => hb.of_held rfl rfl fun m k => ?_⟩
  by_cases hm : m = n
  · subst hm
    refine held_of_size (htouch.linked m) (hsize.trans (hc.fileSize_open hon).symm) (fun b => ?_) k
    have hcontent : ((c.os.setContent m ((c.os.inodes m).pwrite (offBytes ctx.stSize) 0)).close
        ctx.fd).inodes m = (c.os.inodes m).pwrite (offBytes ctx.stSize) 0 := update_self ..
    simp only [hcontent, entryBytes_writeHeader]
  · exact htouch.held hm k

end Requests

/-! ## Runs -/

section Runs

variable [DecidableEq P]

/-- A request, and what it does to the outstanding puts. -/
def ledgerStep (doHash : List UInt8 → Key) (st : BlockStore B) (c : Client (B × (Key → ℕ)) P)
    (op : FuseOp P) : Option (Client (B × (Key → ℕ)) P) :=
  (c.step doHash st.counted op).map Prod.fst

/-- The request succeeds and opens no file twice, with a size or offset that fits in an
`off_t`. -/
def Admitted (doHash : List UInt8 → Key) (st : BlockStore B) (c : Client (B × (Key → ℕ)) P)
    (op : FuseOp P) : Prop :=
  (∃ c' ret, c.step doHash st.counted op = some (c', some ret)) ∧
  match op with
  | .opens p _ => ∀ n, c.os.names p = some (.file n) → c.Closed n
  | .write _ buf offset _ => 0 ≤ offset ∧ offset + buf.length < 2 ^ 63
  | .truncate _ size | .ftruncate _ size => 0 ≤ size ∧ size < 2 ^ 63
  | .mknod _ | .fsync _ => False
  | _ => True

variable {st : BlockStore B} {doHash : List UInt8 → Key} {c c' : Client (B × (Key → ℕ)) P}

/-- Every request. -/
theorem Regular.step (hc : c.Regular) {op : FuseOp P} (hA : Admitted doHash st c op)
    (hs : ledgerStep doHash st c op = some c') : Next doHash st c op c' := by
  obtain ⟨⟨c₁, ret, hok⟩, hop⟩ := hA
  obtain rfl : c₁ = c' := by simpa [ledgerStep, hok] using hs
  cases op with
  | create p => exact hc.create (Option.some.inj hok)
  | opens p junk => exact hc.opens hop (Option.some.inj hok)
  | write fh buf offset junk => exact hc.write hop.1 hop.2 hok
  | truncate p size => exact hc.truncate hop.1 hop.2 hok
  | ftruncate fh size => exact hc.ftruncate hop.1 hop.2 hok
  | release fh => exact hc.release hok
  | rename p q => exact hc.rename (Option.some.inj hok)
  | unlink p => exact hc.unlink hok
  | mknod p | fsync fh => exact hop.elim

end Runs

/-- A mount without files, and no outstanding put. -/
def emptyLedger : Client (Unit × (Key → ℕ)) ℕ where
  os := ⟨fun _ => none, fun _ => [], 0, fun _ => none, 0⟩
  contexts := fun _ => none
  nextFh := 0
  store := ((), fun _ => 0)

theorem emptyLedger_regular : emptyLedger.Regular := by
  refine ⟨?_, ?_, ?_, ?_, ?_, ?_, ?_⟩ <;> simp [emptyLedger, HandleOn]

theorem emptyLedger_balanced : emptyLedger.Balanced := fun _ => rfl

/-- A hash that tells blocks apart by their first byte. -/
def firstByte (d : List UInt8) : Key := ⟨List.replicate 16 (d.headD 0), rfl⟩

theorem HandleOn.kept {st : BlockStore B} {doHash : List UInt8 → Key}
    {c : Client (B × (Key → ℕ)) P} {n fh : ℕ} {ctx : FileContext} (hon : c.HandleOn n fh ctx)
    (hl : c.Linked n) {buf : List UInt8} (hbuf : buf ≠ []) {offset : ℤ} {junk : Key}
    (h : WriteKept doHash st (c.os.inodes n) (blocks ctx.stSize) c.store.2 buf offset junk) :
    c.Kept doHash st (.write fh buf offset junk) := by
  intro m ctx' hon'
  obtain rfl : ctx = ctx' := Option.some.inj (hon.1.symm.trans hon'.1)
  obtain rfl : n = m := Option.some.inj (hon.2.symm.trans hon'.2)
  rw [if_neg hbuf]
  exact ⟨hl, h⟩

/-- Two new blocks, one write each, a truncation to nothing, and both blocks in one write. -/
def rewriting : List (FuseOp ℕ) :=
  [.create 0, .write 0 [1] 0 Key.zero, .write 0 [2] 4096 Key.zero, .ftruncate 0 0,
    .write 0 (List.replicate 4096 3 ++ [4]) 0 Key.zero]

/-- The open file with the size `size` and its metafile, and for its two blocks the entries and
the outstanding puts. -/
def LooksLike (c : Client (Unit × (Key → ℕ)) ℕ) (size : ℤ) (length : ℕ)
    (entries : List (List UInt8 × ℕ)) : Prop :=
  c.contexts 0 = some ⟨0, size⟩ ∧ c.os.ino 0 = some 0 ∧ c.os.names 0 = some (.file 0) ∧
    (c.os.inodes 0).length = length ∧
    [0, 1].map (fun b => (entryBytes (c.os.inodes 0) b,
      c.store.2 (Key.zero.load (entryBytes (c.os.inodes 0) b)))) = entries

instance (c : Client (Unit × (Key → ℕ)) ℕ) (size : ℤ) (length : ℕ)
    (entries : List (List UInt8 × ℕ)) : Decidable (c.LooksLike size length entries) :=
  inferInstanceAs (Decidable (_ ∧ _ ∧ _ ∧ _ ∧ _))

theorem rewriting_admitted : Runs.Each (ledgerStep firstByte OneFile.nullStore)
    (Admitted firstByte OneFile.nullStore) emptyLedger rewriting := by
  have hok : ∀ k : Fin 5, ∀ c ∈ Runs.exec (ledgerStep firstByte OneFile.nullStore) emptyLedger
      (rewriting.take k), ((c.step firstByte OneFile.nullStore.counted
        (rewriting.get k)).bind Prod.snd).isSome := by
    decide +kernel
  refine Runs.Each.of_exec fun k hk c hc => ?_
  obtain ⟨ret, hret⟩ := Option.isSome_iff_exists.1 (hok ⟨k, hk⟩ c hc)
  obtain ⟨⟨c', ret'⟩, hstep, rfl⟩ := Option.bind_eq_some_iff.1 hret
  refine ⟨⟨c', ret, hstep⟩, ?_⟩
  have hlong : (0 : ℤ) + (List.replicate 4096 3 ++ [4] : List UInt8).length < 2 ^ 63 := by
    rw [List.length_append, List.length_replicate]
    decide
  obtain _ | _ | _ | _ | _ | k := k
  · trivial
  · exact ⟨by decide, by decide⟩
  · exact ⟨by decide, by decide⟩
  · exact ⟨by decide, by decide⟩
  · exact ⟨le_rfl, hlong⟩
  · exact absurd hk (Nat.not_lt.2 (Nat.le_add_left 5 k))

theorem rewriting_kept : Runs.Each (ledgerStep firstByte OneFile.nullStore)
    (Kept firstByte OneFile.nullStore) emptyLedger rewriting := by
  set reached := fun k => Runs.exec (ledgerStep firstByte OneFile.nullStore) emptyLedger
    (rewriting.take k)
  have h₁ : ∀ c ∈ reached 1, c.LooksLike 0 16 [([], 0), ([], 0)] := by decide +kernel
  have h₂ : ∀ c ∈ reached 2, c.LooksLike 1 32 [((firstByte [1]).val, 1), ([], 0)] := by
    decide +kernel
  have h₃ : ∀ c ∈ reached 3, c.LooksLike 4097 48
      [((firstByte [1]).val, 1), ((firstByte [2]).val, 1)] := by
    decide +kernel
  have h₄ : ∀ c ∈ reached 4, c.LooksLike 0 48
      [((firstByte [1]).val, 0), ((firstByte [2]).val, 0)] := by
    decide +kernel
  refine Runs.Each.of_exec fun k hk c hc => ?_
  obtain _ | _ | _ | _ | _ | k := k
  · trivial
  · obtain ⟨hctx, hino, hname, hlen, hentries⟩ := h₁ c hc
    simp only [List.map_cons, List.map_nil, List.cons.injEq, Prod.mk.injEq] at hentries
    refine HandleOn.kept ⟨hctx, hino⟩ ⟨0, hname⟩ (by decide)
      ⟨by decide, by rw [hlen]; decide, Or.inr hentries.1.2, fun b hb hlt => ?_⟩
    have hend : blocks (0 + ([1] : List UInt8).length) = 1 := by decide
    omega
  · obtain ⟨hctx, hino, hname, hlen, hentries⟩ := h₂ c hc
    simp only [List.map_cons, List.map_nil, List.cons.injEq, Prod.mk.injEq] at hentries
    refine HandleOn.kept ⟨hctx, hino⟩ ⟨0, hname⟩ (by decide)
      ⟨by decide, by rw [hlen]; decide, Or.inr hentries.2.1.2, fun b hb hlt => ?_⟩
    have hfirst : blockIndex 4096 = 1 := by decide
    have hend : blocks (4096 + ([2] : List UInt8).length) = 2 := by decide
    omega
  · obtain ⟨hctx, hino, hname, hlen, hentries⟩ := h₃ c hc
    intro n ctx hon
    obtain rfl : (⟨0, 4097⟩ : FileContext) = ctx := Option.some.inj (hctx.symm.trans hon.1)
    obtain rfl : 0 = n := Option.some.inj (hino.symm.trans hon.2)
    have hall : ∀ b < blocks 4097, HasEntry (c.os.inodes 0) b := by
      intro b hb
      have hend : blocks 4097 = 2 := by decide
      rw [hasEntry_iff]
      omega
    refine ⟨fun _ => ⟨Or.inl fun b _ hb => ⟨hb, hall b hb⟩, fun b hb hlt => ?_⟩,
      fun hl => (hl ⟨0, hname⟩).elim⟩
    exact (Nat.not_lt_zero b hlt).elim
  · obtain ⟨hctx, hino, hname, hlen, hentries⟩ := h₄ c hc
    simp only [List.map_cons, List.map_nil, List.cons.injEq, Prod.mk.injEq] at hentries
    refine HandleOn.kept ⟨hctx, hino⟩ ⟨0, hname⟩ (by decide)
      ⟨by decide, by rw [hlen]; decide, Or.inr hentries.1.2, fun b hb hlt => ?_⟩
    have hfirst : blockIndex 0 = 0 := by decide
    have hend : blocks (0 + (List.replicate 4096 3 ++ [4] : List UInt8).length) = 2 := by
      rw [List.length_append, List.length_replicate]
      decide
    obtain rfl : b = 1 := by omega
    obtain ⟨hentry, hzero⟩ := hentries.2.1
    have hsecond : HasEntry (c.os.inodes 0) 1 := by
      rw [hasEntry_iff]
      omega
    refine ⟨hsecond, Or.inr fun key hkey => ⟨?_, fun b' _ hb' => ?_⟩⟩
    · rwa [← Subtype.ext ((hsecond.load Key.zero).trans hkey)]
    · -- the first block is all overwritten
      obtain rfl : b' = 0 := by omega
      obtain rfl : firstByte [2] = key := Subtype.ext (hentry.symm.trans hkey)
      refine neverPuts_of_full (i := 0) rfl ?_ (by decide +kernel)
      rw [List.length_append, List.length_replicate]
      decide
  · exact absurd hk (Nat.not_lt.2 (Nat.le_add_left 5 k))

end Client

end Agilefs
