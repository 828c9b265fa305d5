import Agilefs.References
import Agilefs.Runs

/-!
# The ledger of the puts and deletes

`BlockStore.counted` keeps, beside a store, the number of outstanding puts of each key : a
`put_new_chunk` adds one and a `del_chunk` of a key with an outstanding put removes one.

`truncLoop_ledger` and `writeLoop_ledger` say what the loops of the client do to these numbers
and to the references of the file they work on. An iteration deletes the key its `pread` leaves
in `hash_key`. This balances if it is `Matched` : the key read is the entry of a block of the
file, or it has no outstanding put. At the end of the metafile the `pread` is short and
`hash_key` still holds what was there before. `TruncKept` and `WriteKept` are the conditions on
the file, before the loop, under which each of its deletes is matched.
-/

namespace Agilefs

open CInt Posix Function ByteFile

variable {B P : Type*}

/-- The store and the number of outstanding puts of each key. -/
def BlockStore.counted (st : BlockStore B) : BlockStore (B × (Key → ℕ)) where
  blockRead s := st.blockRead s.1
  putNewChunk s k d := (st.putNewChunk s.1 k d).map fun (b, ret) =>
    ((b, update s.2 k (s.2 k + 1)), ret)
  delChunk s k := (st.delChunk s.1 k).map fun (b, ret) => ((b, update s.2 k (s.2 k - 1)), ret)

theorem counted_delChunk {st : BlockStore B} {s s' : B × (Key → ℕ)} {k : Key} {ret : ℤ}
    (h : st.counted.delChunk s k = some (s', ret)) : s'.2 = update s.2 k (s.2 k - 1) := by
  obtain ⟨r, -, hr⟩ := Option.map_eq_some_iff.1 h
  rw [Prod.mk.injEq] at hr
  rw [← hr.1]

theorem counted_putNewChunk {st : BlockStore B} {s s' : B × (Key → ℕ)} {k : Key}
    {d : List UInt8} {ret : ℤ} (h : st.counted.putNewChunk s k d = some (s', ret)) :
    s'.2 = update s.2 k (s.2 k + 1) := by
  obtain ⟨r, -, hr⟩ := Option.map_eq_some_iff.1 h
  rw [Prod.mk.injEq] at hr
  rw [← hr.1]

/-! ## One delete -/

/-- Of a file whose first `live` blocks count : the key that block `b` leaves in `hash_key` is
the entry of a block that counts, or has no outstanding put. -/
def Matched (f : ByteFile) (live : ℕ) (out : Key → ℕ) (hashKey : Key) (b : ℕ) : Prop :=
  b < live ∧ HasEntry f b ∨ out (hashKey.load (entryBytes f b)) = 0

/-- A matched delete takes away what the block counts for. -/
theorem Matched.release {f : ByteFile} {live : ℕ} {out : Key → ℕ} {hashKey : Key} {b : ℕ}
    (h : Matched f live out hashKey b)
    (hcover : b < live → ∀ k, (if entryBytes f b = k.val then 1 else 0) ≤ out k) {old : Key}
    (hold : old = hashKey.load (entryBytes f b)) (k : Key) :
    update out old (out old - 1) k + (if b < live ∧ entryBytes f b = k.val then 1 else 0) =
      out k := by
  -- an entry that is there is the key read
  have hload : HasEntry f b → old.val = entryBytes f b := fun hb => by rw [hold, hb.load]
  rcases h with ⟨hb, hentry⟩ | hzero
  · by_cases hk : k = old
    · subst hk
      have hpos := hcover hb k
      rw [if_pos (hload hentry).symm] at hpos
      rw [update_self, if_pos ⟨hb, (hload hentry).symm⟩]
      omega
    · have hne : ¬(b < live ∧ entryBytes f b = k.val) := fun ⟨_, he⟩ =>
        hk (Subtype.ext (he.symm.trans (hload hentry).symm))
      rw [update_of_ne hk, if_neg hne, add_zero]
  · rw [← hold] at hzero
    have hne : ¬(b < live ∧ entryBytes f b = k.val) := by
      rintro ⟨hb, he⟩
      have hentry : HasEntry f b := by rw [HasEntry, he, k.property]
      obtain rfl : old = k := Subtype.ext ((hload hentry).trans he)
      have := hcover hb old
      rw [if_pos he] at this
      omega
    have hsame : update out old (out old - 1) = out := by
      rw [hzero, Nat.zero_sub, ← hzero, update_eq_self]
    rw [if_neg hne, add_zero, hsame]

theorem le_entryCount {f : ByteFile} {b n : ℕ} (hb : b < n) (k : Key) :
    (if entryBytes f b = k.val then 1 else 0) ≤ entryCount f n k := by
  have h₁ := entryCount_succ f b k
  have h₂ := entryCount_mono f (Nat.succ_le_of_lt hb) k
  simp only [Nat.succ_eq_add_one] at h₂
  omega

/-- A matched delete for block `b`, and the put of another key for it, of a file with `m` blocks
that count : `b` is one of them or the next. What is outstanding changes by what they count for. -/
theorem Matched.rewrite {f f' : ByteFile} {live m b : ℕ} {out out' out'' : Key → ℕ}
    {hashKey old key : Key} (h : Matched f live out hashKey b)
    (hcover : b < live → ∀ k, (if entryBytes f b = k.val then 1 else 0) ≤ out k)
    (hold : old = hashKey.load (entryBytes f b)) (hdel : out' = update out old (out old - 1))
    (hput : out'' = update out' key (out' key + 1)) (hle : b ≤ m) (hiff : b < live ↔ b < m)
    (hentry : ∀ b', entryBytes f' b' = if b' = b then key.val else entryBytes f b') (k : Key) :
    out'' k + entryCount f m k = out k + entryCount f' (max m (b + 1)) k := by
  have hrel := h.release hcover hold k
  rw [← hdel] at hrel
  have hputk : out'' k = out' k + if key.val = k.val then 1 else 0 := by
    rw [hput, update_apply]
    by_cases hk : k = key
    · rw [if_pos hk, if_pos (by rw [hk]), hk]
    · rw [if_neg hk, if_neg fun heq => hk (Subtype.ext heq.symm), add_zero]
  by_cases hlive : b < live
  · have hm := hiff.1 hlive
    have hreplace := entryCount_replace hentry k hm
    simp only [hlive, true_and] at hrel
    rw [max_eq_left (by omega)]
    omega
  · have hm : m = b := by
      have := mt hiff.2 hlive
      omega
    have happend := entryCount_append hentry k
    simp only [hlive, false_and, if_false] at hrel
    rw [hm, max_eq_right (by omega)]
    omega

namespace Client

/-! ## Truncation -/

theorem roundUp_eq {size : ℤ} (h : 0 ≤ size) : roundUp size = (blocks size : ℤ) * 4096 := by
  unfold roundUp blocks
  split_ifs <;> omega

/-- Of a file whose first `live` blocks count, truncated from `stSize` to `size` : the blocks cut
off count and have their entries, or none has one and no put of the key `{0}` is outstanding. -/
def TruncKept (f : ByteFile) (live : ℕ) (out : Key → ℕ) (size stSize : ℤ) : Prop :=
  (∀ b, blocks size ≤ b → b < blocks stSize → b < live ∧ HasEntry f b) ∨
    f.length ≤ blocks size * 16 + 16 ∧ out Key.zero = 0

/-- A truncation of `f` to `size` that has come to block `b`; `out` is what was outstanding before
it. -/
structure TruncDone (f : ByteFile) (live : ℕ) (out : Key → ℕ) (size stSize : ℤ)
    (u : TruncState (B × (Key → ℕ))) (b : ℕ) : Prop where
  position : u.i = (b : ℤ) * 4096
  blocks_le : blocks size ≤ b
  le_blocks : b ≤ max (blocks size) (blocks stSize)
  short : f.length ≤ blocks size * 16 + 16 → out Key.zero = 0 →
    u.hashKey = Key.zero ∧ u.store.2 Key.zero = 0
  count : ∀ k, u.store.2 k + entryCount f (min live b) k =
    out k + entryCount f (min live (blocks size)) k

namespace TruncDone

variable {f : ByteFile} {live : ℕ} {out : Key → ℕ} {size stSize : ℤ}
  {u u' : TruncState (B × (Key → ℕ))} {b : ℕ}

theorem matched (h : TruncDone f live out size stSize u b)
    (hkept : TruncKept f live out size stSize) (hlt : b < blocks stSize) :
    Matched f live u.store.2 u.hashKey b := by
  have hge := h.blocks_le
  rcases hkept with hall | ⟨hlen, hout⟩
  · exact Or.inl (hall b hge hlt)
  · refine Or.inr ?_
    rw [entryBytes_eq_nil (by omega), Key.load_nil, (h.short hlen hout).1]
    exact (h.short hlen hout).2

/-- What is not done yet still counts. -/
theorem le_store (h : TruncDone f live out size stSize u b)
    (hcover : ∀ k, entryCount f live k ≤ out k) (hlt : b < live) (k : Key) :
    (if entryBytes f b = k.val then 1 else 0) ≤ u.store.2 k := by
  have h₁ := h.count k
  have h₂ := hcover k
  have h₃ := entryCount_succ f b k
  have h₄ := entryCount_mono f (by omega : b + 1 ≤ live) k
  rw [min_eq_right hlt.le] at h₁
  omega

/-- One iteration. -/
theorem step {st : BlockStore B} {os : Os P} {fd : ℤ} {n : ℕ} (hino : os.ino fd = some n)
    (hcover : ∀ k, entryCount (os.inodes n) live k ≤ out k)
    (hkept : TruncKept (os.inodes n) live out size stSize)
    (h : TruncDone (os.inodes n) live out size stSize u b) (hlt : u.i < stSize)
    (hbody : truncBody st.counted os {} fd u = some u') :
    TruncDone (os.inodes n) live out size stSize u' (b + 1) := by
  have hpos := h.position
  have hge := h.blocks_le
  rw [hpos, ← lt_blocks_iff] at hlt
  obtain ⟨ret, hdel, hkey, hi'⟩ := truncBody_spec hino (by omega) hbody
  have hindex : blockIndex u.i = b := by
    unfold blockIndex
    omega
  rw [hindex] at hkey
  refine ⟨by omega, by omega, by omega, fun hlen hout => ?_, fun k => ?_⟩
  · obtain ⟨hkey', hout'⟩ := h.short hlen hout
    have hsame : u'.hashKey = Key.zero := by
      rw [hkey, entryBytes_eq_nil (by omega), Key.load_nil, hkey']
    refine ⟨hsame, ?_⟩
    rw [counted_delChunk hdel, hsame, update_self, hout']
  · have hrel := (h.matched hkept hlt).release (h.le_store hcover) hkey k
    rw [← counted_delChunk hdel] at hrel
    have h₁ := h.count k
    rcases lt_or_ge b live with hlive | hlive
    · rw [min_eq_right hlive.le] at h₁
      rw [min_eq_right (by omega : b + 1 ≤ live), entryCount_succ]
      simp only [hlive, true_and] at hrel
      omega
    · rw [min_eq_left (by omega)] at h₁ ⊢
      simp only [not_lt.2 hlive, false_and, if_false] at hrel
      omega

end TruncDone

/-- The loop of a truncation to `size`, of a file whose first `live` blocks count : the deletes
take away what the blocks from `size` up to `stSize` count for. -/
theorem truncLoop_ledger {st : BlockStore B} {os : Os P} {fd : ℤ} {n : ℕ}
    (hino : os.ino fd = some n) {live : ℕ} {size stSize : ℤ} (hsize : 0 ≤ size)
    {store : B × (Key → ℕ)} (hcover : ∀ k, entryCount (os.inodes n) live k ≤ store.2 k)
    (hkept : TruncKept (os.inodes n) live store.2 size stSize)
    {t : TruncState (B × (Key → ℕ))}
    (hrun : truncLoop st.counted os {} fd stSize ⟨store, .zero, roundUp size⟩ = some t) (k : Key) :
    t.store.2 k + entryCount (os.inodes n) (min live (max (blocks size) (blocks stSize))) k =
      store.2 k + entryCount (os.inodes n) (min live (blocks size)) k := by
  have hstart : TruncDone (os.inodes n) live store.2 size stSize ⟨store, .zero, roundUp size⟩
      (blocks size) :=
    ⟨roundUp_eq hsize, le_rfl, le_max_left _ _, fun _ h => ⟨rfl, h⟩, fun _ => rfl⟩
  obtain ⟨⟨b, h⟩, hend⟩ := Loop.run_invariant
    (I := fun u => ∃ b, TruncDone (os.inodes n) live store.2 size stSize u b)
    (fun u u' ⟨b, h⟩ hlt hbody => ⟨b + 1, h.step hino hcover hkept (of_decide_eq_true hlt) hbody⟩)
    ⟨_, hstart⟩ hrun
  have hge := h.blocks_le
  have hle := h.le_blocks
  rw [decide_eq_false_iff_not, h.position, ← lt_blocks_iff] at hend
  rw [show max (blocks size) (blocks stSize) = b by omega]
  exact h.count k

/-! ## Writing -/

/-- The blocks that count when a write at `offset` has come to byte `i`, of a file with `live`
blocks. -/
def liveAt (live : ℕ) (offset i : ℤ) : ℕ :=
  if i = offset then live else max live (blocks i)

/-- The block a write has come to is one that counts or the next. -/
theorem blockIndex_le_liveAt {live : ℕ} {offset i : ℤ} (hgap : blockIndex offset ≤ live)
    (hi : i = offset ∨ i % 4096 = 0) :
    blockIndex i ≤ liveAt live offset i ∧
      (blockIndex i < live ↔ blockIndex i < liveAt live offset i) := by
  unfold liveAt
  split_ifs with h
  · exact ⟨h ▸ hgap, Iff.rfl⟩
  · have hal : i % 4096 = 0 := hi.resolve_left h
    have hblocks : blocks i = blockIndex i := by
      unfold blocks blockIndex
      omega
    omega

theorem liveAt_next {live : ℕ} {offset stop i : ℤ} (h₀ : 0 ≤ offset) (hle : offset ≤ i)
    (hlt : i < stop) (hi : i = offset ∨ i % 4096 = 0) :
    liveAt live offset (i + chunkLen stop i) = max (liveAt live offset i) (blockIndex i + 1) := by
  have hpos := chunkLen_pos hlt
  have hnext : blocks (i + chunkLen stop i) = blockIndex i + 1 := by
    unfold blocks chunkLen blockIndex
    omega
  unfold liveAt
  rw [if_neg (by omega), hnext]
  split_ifs with h
  · rfl
  · have hblocks : blocks i = blockIndex i := by
      have := hi.resolve_left h
      unfold blocks blockIndex
      omega
    omega

/-- Block `b` does not get the key `k` in a write of `buf` at `offset`, whatever its old bytes. -/
def NeverPuts (doHash : List UInt8 → Key) (st : BlockStore B) (buf : List UInt8) (offset : ℤ)
    (k : Key) (b : ℕ) : Prop :=
  ∀ store old, let i := max offset ((b : ℤ) * 4096)
    doHash (blockData st store old buf offset i (chunkLen (offset + buf.length) i)) ≠ k

/-- A block that is all overwritten gets the hash of its new bytes. -/
theorem neverPuts_of_full {doHash : List UInt8 → Key} {st : BlockStore B} {buf : List UInt8}
    {offset : ℤ} {k : Key} {b : ℕ} {i : ℤ} (hi : max offset ((b : ℤ) * 4096) = i)
    (hfull : chunkLen (offset + buf.length) i = 4096)
    (h : doHash (ByteFile.pwrite (List.replicate 4096 0) ((buf.drop (i - offset).toNat).take 4096)
      (i % 4096).toNat) ≠ k) : NeverPuts doHash st buf offset k b := by
  subst hi
  intro store old
  simp only [hfull, blockData]
  exact h

/-- Of a file whose first `live` blocks count, written from `offset` : no block and no entry is
left out before the first block written, its delete is matched, and all blocks behind it have
entries. Such a block counts, or its entry is left over, of a key that has no outstanding put and
that no block before it gets. -/
structure WriteKept (doHash : List UInt8 → Key) (st : BlockStore B) (f : ByteFile) (live : ℕ)
    (out : Key → ℕ) (buf : List UInt8) (offset : ℤ) (junk : Key) : Prop where
  gap : blockIndex offset ≤ live
  before : blockIndex offset * 16 + 16 ≤ f.length
  first : Matched f live out junk (blockIndex offset)
  later : ∀ b, blockIndex offset < b → b < blocks (offset + buf.length) → HasEntry f b ∧
    (b < live ∨ ∀ k, entryBytes f b = k.val → out k = 0 ∧
      ∀ b', blockIndex offset ≤ b' → b' < b → NeverPuts doHash st buf offset k b')

/-- A write of `buf` to a file with the first `live` blocks that count, in the state `w₀` when it
starts and `w` now. -/
structure WriteDone (doHash : List UInt8 → Key) (st : BlockStore B) (buf : List UInt8)
    (n live : ℕ) (w₀ w : WriteState (B × (Key → ℕ)) P) : Prop where
  position : w.i < w₀.i + buf.length → (w.i = w₀.i ∨ w₀.i < w.i ∧ w.i % 4096 = 0) ∧
    blockIndex w.i * 16 + 16 ≤ (w.os.inodes n).length
  initial : w.i = w₀.i → w = w₀
  length_le : (w₀.os.inodes n).length ≤ (w.os.inodes n).length
  entries : w.i < w₀.i + buf.length → ∀ b, blockIndex w.i ≤ b →
    entryBytes (w.os.inodes n) b = entryBytes (w₀.os.inodes n) b
  unused : w.i < w₀.i + buf.length → ∀ k, w₀.store.2 k = 0 →
    (∀ b, blockIndex w₀.i ≤ b → b < blockIndex w.i → NeverPuts doHash st buf w₀.i k b) →
      w.store.2 k = 0
  count : ∀ k, w.store.2 k + entryCount (w₀.os.inodes n) live k =
    w₀.store.2 k + entryCount (w.os.inodes n) (liveAt live w₀.i w.i) k

namespace WriteDone

variable {doHash : List UInt8 → Key} {st : BlockStore B} {n live : ℕ} {buf : List UInt8}
  {w₀ w w' : WriteState (B × (Key → ℕ)) P}

theorem matched (h : WriteDone doHash st buf n live w₀ w)
    (hkept : WriteKept doHash st (w₀.os.inodes n) live w₀.store.2 buf w₀.i w₀.hashKey)
    (h₀ : 0 ≤ w₀.i) (hlt : w.i < w₀.i + buf.length) :
    Matched (w.os.inodes n) live w.store.2 w.hashKey (blockIndex w.i) := by
  rcases (h.position hlt).1 with heq | ⟨hgt, hal⟩
  · rw [h.initial heq]
    exact hkept.first
  · have hindex : blockIndex w₀.i < blockIndex w.i := by
      unfold blockIndex
      omega
    have hblock : blockIndex w.i < blocks (w₀.i + buf.length) := by
      unfold blockIndex blocks
      omega
    have hsame := h.entries hlt _ le_rfl
    obtain ⟨hentry, hlive | hstale⟩ := hkept.later _ hindex hblock
    · exact Or.inl ⟨hlive, by rw [HasEntry, hsame]; exact hentry⟩
    · refine Or.inr ?_
      rw [hsame]
      obtain ⟨hzero, hnever⟩ := hstale _ (hentry.load w.hashKey).symm
      exact h.unused hlt _ hzero hnever

/-- What is not rewritten yet still counts. -/
theorem le_store (h : WriteDone doHash st buf n live w₀ w)
    (hcover : ∀ k, entryCount (w₀.os.inodes n) live k ≤ w₀.store.2 k) {b : ℕ}
    (hb : b < liveAt live w₀.i w.i) (k : Key) :
    (if entryBytes (w.os.inodes n) b = k.val then 1 else 0) ≤ w.store.2 k := by
  have h₁ := h.count k
  have h₂ := hcover k
  have h₃ : (if entryBytes (w.os.inodes n) b = k.val then 1 else 0) ≤
      entryCount (w.os.inodes n) (liveAt live w₀.i w.i) k := le_entryCount hb k
  omega

/-- One iteration that does not fail. -/
theorem step {fd : ℤ} (hino : w.os.ino fd = some n) (h₀ : 0 ≤ w₀.i)
    (hmax : w₀.i + buf.length < 2 ^ 63)
    (hcover : ∀ k, entryCount (w₀.os.inodes n) live k ≤ w₀.store.2 k)
    (hkept : WriteKept doHash st (w₀.os.inodes n) live w₀.store.2 buf w₀.i w₀.hashKey)
    (h : WriteDone doHash st buf n live w₀ w) (hle : w₀.i ≤ w.i)
    (hlt : w.i < w₀.i + buf.length)
    (hbody : writeBody doHash st.counted {} fd buf w₀.i w = some w') (hok : w'.ok = true) :
    WriteDone doHash st buf n live w₀ w' := by
  obtain ⟨old, data, store', ret, ret', hold, hdata, hdel, hhash, hput, hos, hok', hi'⟩ :=
    writeBody_spec hino h₀ hmax hle hlt hbody
  have hret : ret' = 0 := by simpa [hok'] using hok
  rw [if_pos hret] at hi'
  obtain ⟨hal, hfull⟩ := h.position hlt
  have hmatch := h.matched hkept h₀ hlt
  have hrest := h.le_store hcover (b := blockIndex w.i)
  have hlen := h.length_le
  have hcount := h.count
  have hentries := h.entries hlt
  have hstart : w.i = max w₀.i ((blockIndex w.i : ℤ) * 4096) := by
    unfold blockIndex
    omega
  set b := blockIndex w.i with hb
  set f := w.os.inodes n with hf
  have hf' : w'.os.inodes n = f.pwrite w'.hashKey.val (b * 16 + 16) := by
    rw [hos, Os.setContent_inodes, update_self]
  have hal' : w.i = w₀.i ∨ w.i % 4096 = 0 := hal.imp_right And.right
  obtain ⟨hble, hiff⟩ := blockIndex_le_liveAt hkept.gap hal'
  have hpos := chunkLen_pos hlt
  -- the next block is the one behind
  have hnext : w.i + chunkLen (w₀.i + buf.length) w.i < w₀.i + buf.length →
      (w.i + chunkLen (w₀.i + buf.length) w.i) % 4096 = 0 ∧
        blockIndex (w.i + chunkLen (w₀.i + buf.length) w.i) = b + 1 := by
    intro hlt'
    rw [hb]
    unfold blockIndex
    unfold chunkLen at hlt' ⊢
    omega
  refine ⟨?_, fun heq => by omega, ?_, ?_, ?_, fun k => ?_⟩
  · rw [hi', hf', length_writeEntry]
    intro hlt'
    obtain ⟨hal₁, hindex⟩ := hnext hlt'
    exact ⟨Or.inr ⟨by omega, hal₁⟩, by omega⟩
  · rw [hf', length_writeEntry]
    omega
  · rw [hi', hf']
    intro hlt' b' hb'
    rw [(hnext hlt').2] at hb'
    rw [entryBytes_writeEntry hfull, if_neg (by omega), hentries b' (by omega)]
  · rw [hi']
    intro hlt' k hzero hnever
    rw [(hnext hlt').2] at hnever
    have hbefore := h.unused hlt k hzero fun b' hge hb' => hnever b' hge (by omega)
    -- the delete takes nothing, and the put is of another key
    have hne : k ≠ w'.hashKey := by
      rw [hhash, hdata, hstart]
      exact (hnever b (by rw [hb]; unfold blockIndex; omega) (by omega) w.store.1 old).symm
    rw [counted_putNewChunk hput, update_of_ne hne, counted_delChunk hdel, update_apply]
    split_ifs with hk
    · rw [← hk, hbefore]
    · exact hbefore
  · -- the delete, and then the put
    have hbalance := hmatch.rewrite (fun hlive => hrest (hiff.1 hlive)) hold
      (counted_delChunk hdel) (counted_putNewChunk hput) hble hiff
      (entryBytes_writeEntry hfull w'.hashKey) k
    have hcountk := hcount k
    rw [hi', hf', liveAt_next h₀ hle hlt hal', ← hb]
    omega

/-- The whole loop. -/
theorem of_loop {fd : ℤ} (hino : w₀.os.ino fd = some n) (h₀ : 0 ≤ w₀.i)
    (hmax : w₀.i + buf.length < 2 ^ 63)
    (hcover : ∀ k, entryCount (w₀.os.inodes n) live k ≤ w₀.store.2 k)
    (hkept : WriteKept doHash st (w₀.os.inodes n) live w₀.store.2 buf w₀.i w₀.hashKey)
    (hrun : writeLoop doHash st.counted {} fd buf w₀.i w₀ = some w) (hok : w.ok = true) :
    WriteDone doHash st buf n live w₀ w ∧ w.i = w₀.i + buf.length := by
  have hstart : WriteDone doHash st buf n live w₀ w₀ :=
    ⟨fun _ => ⟨Or.inl rfl, hkept.before⟩, fun _ => rfl, le_rfl, fun _ _ _ => rfl,
      fun _ _ hzero _ => hzero, fun k => by simp only [liveAt, if_true]⟩
  have hstep : ∀ w w', (w.os.ino fd = some n ∧
        (w.ok = true → WriteDone doHash st buf n live w₀ w)) → w.ok = true →
      w₀.i ≤ w.i → w.i < w₀.i + buf.length →
      writeBody doHash st.counted {} fd buf w₀.i w = some w' → w'.os.ino fd = some n ∧
        (w'.ok = true → WriteDone doHash st buf n live w₀ w') := by
    rintro w w' ⟨hino', hw⟩ hok hle hlt hbody
    obtain ⟨-, -, -, -, -, -, -, -, -, -, hos, -⟩ :=
      writeBody_spec hino' h₀ hmax hle hlt hbody
    exact ⟨by rw [hos]; exact hino', (hw hok).step hino' h₀ hmax hcover hkept hle hlt hbody⟩
  obtain ⟨⟨-, hdone⟩, hend⟩ := writeLoop_invariant h₀ hmax (fun w h => h.1) hstep
    ⟨hino, fun _ => hstart⟩ rfl hrun
  exact ⟨hdone hok, hend hok⟩

end WriteDone

/-- The loop of a write : the puts and the deletes make up for what the blocks of the file count
for. -/
theorem writeLoop_ledger {doHash : List UInt8 → Key} {st : BlockStore B} {os : Os P} {fd : ℤ}
    {n : ℕ} (hino : os.ino fd = some n) {buf : List UInt8} (hbuf : buf ≠ []) {offset : ℤ}
    (h₀ : 0 ≤ offset) (hmax : offset + buf.length < 2 ^ 63) {live : ℕ}
    {store : B × (Key → ℕ)} {junk : Key}
    (hcover : ∀ k, entryCount (os.inodes n) live k ≤ store.2 k)
    (hkept : WriteKept doHash st (os.inodes n) live store.2 buf offset junk)
    {w : WriteState (B × (Key → ℕ)) P} (hok : w.ok = true)
    (hrun : writeLoop doHash st.counted {} fd buf offset ⟨os, store, junk, offset, true⟩ =
      some w) (k : Key) :
    w.store.2 k + entryCount (os.inodes n) live k =
      store.2 k + entryCount (w.os.inodes n) (max live (blocks (offset + buf.length))) k := by
  have hpos : 0 < buf.length := List.length_pos_of_ne_nil hbuf
  obtain ⟨hdone, hend⟩ := WriteDone.of_loop hino h₀ hmax hcover hkept hrun hok
  have hcount := hdone.count k
  simp only at hcount hend
  rw [hend, liveAt, if_neg (by omega)] at hcount
  exact hcount

end Client

end Agilefs
