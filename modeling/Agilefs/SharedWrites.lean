import Agilefs.FileBytes
import Agilefs.SharedCalls

/-!
# Writes at the same time

A `Batch` is a number of requests on open files, none of which goes past the end of its file, where
no two writes touch the same block. However their steps are interleaved, each write finds its
blocks as they were before the batch : `WriteInv` says what it has done when it is about to take a
step, `Batch.Frame` what all of them together leave alone, and `Guarantees` what one step of a
request leaves alone for the others. `writeAct_keeps` : the steps of a write keep all this.
-/

namespace Agilefs

open CInt Posix Function ByteFile

variable {B P ι : Type*}

/-- The entries of the metafiles, with a key written over one of them. -/
theorem entryBytes_setContent {os : Os P} {n b : ℕ} (k : Key) (h : HasEntry (os.inodes n) b)
    (m d : ℕ) :
    entryBytes ((os.setContent n ((os.inodes n).pwrite k.val (b * 16 + 16))).inodes m) d =
      if m = n ∧ d = b then k.val else entryBytes (os.inodes m) d := by
  have hlen := hasEntry_iff.1 h
  rw [Os.setContent_inodes, update_apply]
  by_cases hm : m = n
  · rw [if_pos hm, entryBytes_writeEntry (by omega), hm]
    exact if_congr (by simp) rfl rfl
  · rw [if_neg hm, if_neg fun hcond => hm hcond.1]

/-- The block of a byte from `offset` on. -/
theorem blockIndex_mem_touched {offset i y : ℤ} (h₀ : 0 ≤ offset) (hge : offset ≤ i)
    (hlt : i < y) : blockIndex i ∈ touched offset y := by
  rw [mem_touched h₀]
  unfold blockIndex
  omega

/-- The block at which the loops are is not one of those before. -/
theorem blockIndex_not_mem_touched {offset i : ℤ} (h₀ : 0 ≤ offset) (hat : AtBlock offset i) :
    blockIndex i ∉ touched offset i := by
  rw [mem_touched h₀]
  unfold AtBlock at hat
  unfold blockIndex
  omega

/-- The end of a request. -/
def IoCall.stop (q : IoCall) : ℤ := q.offset + q.buf.length

/-- The blocks with a byte of the request. -/
def IoCall.blocks (q : IoCall) : List ℕ := touched q.offset q.stop

/-- Requests on the files of a client, `node` with a descriptor `fd` each. -/
structure Batch (ι : Type*) (doHash : List UInt8 → Key) (v : StoreView B) (S : Set (List UInt8))
    (c₀ : Client B P) (bytes : ℕ → ByteFile) where
  call : ι → IoCall
  node : ι → ℕ
  fd : ι → ℤ
  context : ∀ i, c₀.contexts (call i).fh = some ⟨fd i, ((bytes (node i)).length : ℤ)⟩
  ino : ∀ i, c₀.os.ino (fd i) = some (node i)
  describes : ∀ i, Describes (v.chunk c₀.store) (c₀.os.inodes (node i)) (bytes (node i))
  nonneg : ∀ i, 0 ≤ (call i).offset
  inside : ∀ i, (call i).stop ≤ (bytes (node i)).length
  short : ∀ i, (call i).buf.length < 2 ^ 31
  apart : ∀ i j, i ≠ j → (call i).kind = .write → (call j).kind = .write → node i = node j →
    List.Disjoint (call i).blocks (call j).blocks
  addressed : Addressed doHash S (v.chunk c₀.store)
  inj : S.InjOn doHash

namespace Batch

variable {doHash : List UInt8 → Key} {v : StoreView B} {S : Set (List UInt8)} {c₀ : Client B P}
  {bytes : ℕ → ByteFile} (T : Batch ι doHash v S c₀ bytes)

/-- What request `i` starts from. -/
def job (i : ι) : WriteJob :=
  ⟨doHash, c₀.os.inodes (T.node i), v.chunk c₀.store, v.refs c₀.store, (T.call i).buf,
    (T.call i).offset, (T.call i).junk⟩

/-- Request `i` writes to block `b` of file `n`. -/
def Writes (i : ι) (n b : ℕ) : Prop :=
  (T.call i).kind = .write ∧ T.node i = n ∧ b ∈ (T.call i).blocks

/-- The blocks written are in `S`. -/
def Fresh : Prop := ∀ i n b, T.Writes i n b → (T.job i).newBlock b ∈ S

/-! ## The blocks -/

theorem lt_stop (i : ι) : (T.call i).stop < 2 ^ 63 := by
  have := (T.describes i).lt
  have := T.inside i
  omega

/-- A block of a request has an entry and a chunk. -/
theorem covered {i : ι} {b : ℕ} (hb : b ∈ (T.call i).blocks) :
    HasEntry (c₀.os.inodes (T.node i)) b ∧
      v.chunk c₀.store ((T.job i).oldKey b) = some ((T.job i).oldBlock b) := by
  have hinside := T.inside i
  have hlt : b < Agilefs.blocks ((bytes (T.node i)).length : ℤ) := by
    rw [lt_blocks_iff]
    have := ((mem_touched (T.nonneg i)).1 hb).2.2
    omega
  obtain ⟨hentry, hchunk⟩ := (T.describes i).covered b hlt
  obtain ⟨d, hd⟩ := Option.isSome_iff_exists.1 hchunk
  have hold : v.chunk c₀.store ((T.job i).oldKey b) = some d := hd
  refine ⟨hentry, ?_⟩
  have hblock : (T.job i).oldBlock b =
      (v.chunk c₀.store ((T.job i).oldKey b)).getD zeroBlock :=
    if_pos ((T.job i).hasEntry_iff_live.1 hentry)
  rw [hblock, hold, Option.getD_some]

/-- Two writes to a block are one. -/
theorem writes_unique {i j : ι} {n b : ℕ} (hi : T.Writes i n b) (hj : T.Writes j n b) : i = j := by
  by_contra hne
  exact T.apart i j hne hi.1 hj.1 (hi.2.1.trans hj.2.1.symm) hi.2.2 hj.2.2

/-! ## What is shared -/

/-- Request `i` has written the entry of block `b` of file `n`. -/
def Wrote (i : ι) (c : Client B P) (n b : ℕ) : Prop :=
  T.Writes i n b ∧ entryBytes (c.os.inodes n) b = ((T.job i).newKey b).val

/-- What the requests leave alone, and what they may do to the entries and the store. -/
structure Frame (c : Client B P) : Prop where
  os : c.os = { c₀.os with inodes := c.os.inodes }
  contexts : c.contexts = c₀.contexts
  nextFh : c.nextFh = c₀.nextFh
  entries : ∀ n b, entryBytes (c.os.inodes n) b = entryBytes (c₀.os.inodes n) b ∨
    ∃ i, T.Wrote i c n b
  inodes : ∀ n, (∀ i b, ¬T.Writes i n b) → c.os.inodes n = c₀.os.inodes n
  kept : ∀ k d, v.chunk c₀.store k = some d → v.chunk c.store k = some d
  addressed : Addressed doHash S (v.chunk c.store)

theorem frame_start : T.Frame c₀ :=
  ⟨rfl, rfl, rfl, fun _ _ => Or.inl rfl, fun _ _ => rfl, fun _ _ hd => hd, T.addressed⟩

/-- What a step of request `i` leaves alone, but for its own entries. -/
structure Guarantees (i : ι) (c c' : Client B P) : Prop where
  entries : ∀ n b, entryBytes (c'.os.inodes n) b = entryBytes (c.os.inodes n) b ∨
    T.Wrote i c' n b
  kept : ∀ k d, v.chunk c.store k = some d → v.chunk c'.store k = some d

theorem guarantees_self (i : ι) (c : Client B P) : T.Guarantees i c c :=
  ⟨fun _ _ => Or.inl rfl, fun _ _ hd => hd⟩

variable {T}

/-- An entry that is written is not undone. -/
theorem Wrote.rely {i j : ι} {c c' : Client B P} {n b : ℕ} (h : T.Wrote i c n b)
    (hG : T.Guarantees j c c') : T.Wrote i c' n b := by
  rcases hG.entries n b with hsame | hj
  · exact ⟨h.1, hsame.trans h.2⟩
  · obtain rfl := T.writes_unique h.1 hj.1
    exact hj

/-- A step keeps what all requests leave alone. -/
theorem Frame.next {i : ι} {c c' : Client B P} (h : T.Frame c) (hG : T.Guarantees i c c')
    (hos : c'.os = { c.os with inodes := c'.os.inodes }) (hctx : c'.contexts = c.contexts)
    (hfh : c'.nextFh = c.nextFh)
    (hinodes : ∀ n, (∀ j b, ¬T.Writes j n b) → c'.os.inodes n = c.os.inodes n)
    (haddr : Addressed doHash S (v.chunk c'.store)) : T.Frame c' := by
  refine ⟨?_, hctx.trans h.contexts, hfh.trans h.nextFh, fun n b => ?_,
    fun n hn => (hinodes n hn).trans (h.inodes n hn), fun k d hd => hG.kept k d (h.kept k d hd),
    haddr⟩
  · rw [hos, h.os]
  · rcases h.entries n b with hold | ⟨j, hj⟩
    · exact (hG.entries n b).imp (·.trans hold) fun hi => ⟨i, hi⟩
    · exact Or.inr ⟨j, hj.rely hG⟩

theorem Frame.context {c : Client B P} (h : T.Frame c) (i : ι) :
    c.contexts (T.call i).fh = some ⟨T.fd i, ((bytes (T.node i)).length : ℤ)⟩ := by
  rw [h.contexts]
  exact T.context i

theorem Frame.ino {c : Client B P} (h : T.Frame c) (i : ι) :
    c.os.ino (T.fd i) = some (T.node i) := by
  rw [h.os]
  exact T.ino i

/-- A block of a request still has an entry. -/
theorem Frame.hasEntry {c : Client B P} (h : T.Frame c) {i : ι} {b : ℕ}
    (hb : b ∈ (T.call i).blocks) : HasEntry (c.os.inodes (T.node i)) b := by
  rcases h.entries (T.node i) b with hold | ⟨j, -, hnew⟩
  · rw [HasEntry, hold]
    exact (T.covered hb).1
  · rw [HasEntry, hnew, ((T.job j).newKey b).property]

/-- A write that leaves an entry as it was leaves the block as it was. -/
theorem Wrote.unchanged {i : ι} {c : Client B P} {n b : ℕ} (h : T.Wrote i c n b)
    (hfresh : T.Fresh)
    (hold : entryBytes (c.os.inodes n) b = entryBytes (c₀.os.inodes n) b) :
    v.chunk c₀.store ((T.job i).newKey b) = some ((T.job i).newBlock b) ∧
      v.chunk c₀.store (entryKey (c₀.os.inodes n) b) = some ((T.job i).newBlock b) := by
  obtain ⟨hwrites, hnew⟩ := h
  have hS := hfresh i n b hwrites
  obtain ⟨-, rfl, hb⟩ := hwrites
  obtain ⟨hentry, hchunk⟩ := T.covered hb
  have hkey : (T.job i).oldKey b = (T.job i).newKey b :=
    Subtype.ext (hentry.entryKey_val.trans (hold.symm.trans hnew))
  have hblock : (T.job i).oldBlock b = (T.job i).newBlock b :=
    T.addressed.eq_of_chunk T.inj hS (by rw [← hchunk, hkey]; rfl)
  rw [hblock] at hchunk
  exact ⟨hkey ▸ hchunk, hchunk⟩

/-! ## One write -/

/-- Request `i` has written the entries of its blocks before byte `y`, and put those before `z`. -/
structure Progress (T : Batch ι doHash v S c₀ bytes) (i : ι) (c : Client B P) (y z : ℤ) : Prop where
  new : ∀ b ∈ (T.call i).blocks, b ∈ touched (T.call i).offset y →
    entryBytes (c.os.inodes (T.node i)) b = ((T.job i).newKey b).val
  old : ∀ b ∈ (T.call i).blocks, b ∉ touched (T.call i).offset y →
    entryBytes (c.os.inodes (T.node i)) b = entryBytes (c₀.os.inodes (T.node i)) b
  stored : ∀ b ∈ touched (T.call i).offset z,
    v.chunk c.store ((T.job i).newKey b) = some ((T.job i).newBlock b)

/-- All blocks of request `i` are written. -/
def Done (T : Batch ι doHash v S c₀ bytes) (i : ι) (c : Client B P) : Prop :=
  T.Progress i c (T.call i).stop (T.call i).stop

/-- The variables of request `i` in its loop. -/
structure Loops (T : Batch ι doHash v S c₀ bytes) (i : ι) (x : WriteVars) : Prop where
  fd : x.fd = T.fd i
  stSize : x.stSize = ((bytes (T.node i)).length : ℤ)
  ge : (T.call i).offset ≤ x.i
  lt : x.i < (T.call i).stop
  atBlock : AtBlock (T.call i).offset x.i

/-- What holds when a write is about to take a step. -/
def WriteInv (T : Batch ι doHash v S c₀ bytes) (st : BlockStore B) (i : ι) (c : Client B P) :
    WritePc → Prop
  | .start => T.Progress i c (T.call i).offset (T.call i).offset
  | .entry x => T.Loops i x ∧ T.Progress i c x.i x.i
  | .base x => T.Loops i x ∧ T.Progress i c x.i x.i ∧
    x.hashKey = (T.job i).oldKey (blockIndex x.i) ∧
    Client.chunkLen (T.call i).stop x.i ≠ 4096
  | .clear x data => T.Loops i x ∧ T.Progress i c x.i x.i ∧
    ∃ s, data = baseData st s ((T.job i).oldKey (blockIndex x.i))
        (Client.chunkLen (T.call i).stop x.i) ∧
      v.chunk s ((T.job i).oldKey (blockIndex x.i)) = some ((T.job i).oldBlock (blockIndex x.i))
  | .publish x data => T.Loops i x ∧ T.Progress i c x.i x.i ∧
    data = (T.job i).newBlock (blockIndex x.i) ∧ x.hashKey = doHash data
  | .put x data => T.Loops i x ∧
    T.Progress i c (x.i + Client.chunkLen (T.call i).stop x.i) x.i ∧
    data = (T.job i).newBlock (blockIndex x.i) ∧ x.hashKey = doHash data
  | .grow x => x.stSize = ((bytes (T.node i)).length : ℤ) ∧ T.Done i c
  | .returned ret => ret = some ((T.call i).buf.length : ℤ) ∧ T.Done i c

/-! ## The steps of a write -/

section Steps

variable {st : BlockStore B} {i : ι} {c c' : Client B P} {x : WriteVars}

theorem sizeToWrite_eq (h : T.Loops i x) :
    Client.sizeToWrite (T.call i).buf (T.call i).offset x.i =
      Client.chunkLen (T.call i).stop x.i := by
  have h₀ := T.nonneg i
  have hmax := T.lt_stop i
  have hlt := h.lt
  have hge := h.ge
  unfold IoCall.stop at hmax hlt ⊢
  rw [Client.sizeToWrite, int64_of_range (by omega) (by omega), Client.chunkLen]
  omega

theorem Loops.mem_blocks (h : T.Loops i x) : blockIndex x.i ∈ (T.call i).blocks :=
  blockIndex_mem_touched (T.nonneg i) h.ge h.lt

theorem Loops.not_mem (h : T.Loops i x) : blockIndex x.i ∉ touched (T.call i).offset x.i :=
  blockIndex_not_mem_touched (T.nonneg i) h.atBlock

theorem Loops.touched_next (h : T.Loops i x) :
    touched (T.call i).offset (x.i + Client.chunkLen (T.call i).stop x.i) =
      touched (T.call i).offset x.i ++ [blockIndex x.i] :=
  Agilefs.touched_next (T.nonneg i) h.atBlock h.lt

theorem Loops.setKey (h : T.Loops i x) (key : Key) : T.Loops i { x with hashKey := key } :=
  ⟨h.fd, h.stSize, h.ge, h.lt, h.atBlock⟩

/-- The key that is read for the block. -/
theorem Loops.readKey_eq (h : T.Loops i x) (hF : T.Frame c) (hp : T.Progress i c x.i x.i) :
    readKey c.os {} x.fd x.i x.hashKey = (T.job i).oldKey (blockIndex x.i) := by
  have hmem := h.mem_blocks
  rw [h.fd, readKey_full (hF.ino i) ((T.nonneg i).trans h.ge), hp.old _ hmem h.not_mem]
  exact (T.covered hmem).1.load_eq _

/-- The other requests do not undo what a write has done. -/
theorem Progress.rely {j : ι} {y z : ℤ} (h : T.Progress i c y z)
    (hkind : (T.call i).kind = .write) (hne : i ≠ j) (hG : T.Guarantees j c c') :
    T.Progress i c' y z := by
  have hown : ∀ b ∈ (T.call i).blocks, entryBytes (c'.os.inodes (T.node i)) b =
      entryBytes (c.os.inodes (T.node i)) b := fun b hb =>
    (hG.entries _ _).resolve_right fun hj => hne (T.writes_unique ⟨hkind, rfl, hb⟩ hj.1)
  exact ⟨fun b hb hy => (hown b hb).trans (h.new b hb hy),
    fun b hb hy => (hown b hb).trans (h.old b hb hy), fun b hb => hG.kept _ _ (h.stored b hb)⟩

/-- At the test of the loop. -/
theorem writeTest_keeps (hfd : x.fd = T.fd i)
    (hsize : x.stSize = ((bytes (T.node i)).length : ℤ)) (hge : (T.call i).offset ≤ x.i)
    (hle : x.i ≤ (T.call i).stop) (hat : x.i < (T.call i).stop → AtBlock (T.call i).offset x.i)
    (h : T.Progress i c x.i x.i) :
    T.WriteInv st i c (Client.writeTest (T.call i).buf (T.call i).offset x) := by
  have hiff : uint64 x.i < uint64 ((T.call i).offset + (T.call i).buf.length) ↔
      x.i < (T.call i).offset + (T.call i).buf.length :=
    Client.writeCond_iff ((T.nonneg i).trans hge) (T.lt_stop i) hle
  rw [Client.writeTest]
  split_ifs with hcond
  · have hlt : x.i < (T.call i).stop := hiff.1 hcond
    exact ⟨⟨hfd, hsize, hge, hlt, hat hlt⟩, h⟩
  · have hend : x.i = (T.call i).stop := le_antisymm hle (not_lt.1 (mt hiff.2 hcond))
    rw [hend] at h
    exact ⟨hsize, h⟩

/-- The entry of a block is written. -/
theorem publish_keeps (h : T.Frame c) (hkind : (T.call i).kind = .write) (hx : T.Loops i x)
    (hp : T.Progress i c x.i x.i) (hos : c'.os = c.os.setContent (T.node i)
      ((c.os.inodes (T.node i)).pwrite ((T.job i).newKey (blockIndex x.i)).val
        (blockIndex x.i * 16 + 16))) (hctx : c'.contexts = c.contexts)
    (hfh : c'.nextFh = c.nextFh) (hstore : c'.store = c.store) :
    T.Frame c' ∧ T.Progress i c' (x.i + Client.chunkLen (T.call i).stop x.i) x.i ∧
      T.Guarantees i c c' := by
  have hmem := hx.mem_blocks
  have hself : T.Writes i (T.node i) (blockIndex x.i) := ⟨hkind, rfl, hmem⟩
  have hbytes := entryBytes_setContent (T.job i |>.newKey (blockIndex x.i)) (h.hasEntry hmem)
  rw [← hos] at hbytes
  have hG : T.Guarantees i c c' := by
    refine ⟨fun n b => ?_, by rw [hstore]; exact fun _ _ hd => hd⟩
    by_cases hnb : n = T.node i ∧ b = blockIndex x.i
    · obtain ⟨rfl, rfl⟩ := hnb
      exact Or.inr ⟨hself, by rw [hbytes, if_pos ⟨rfl, rfl⟩]⟩
    · exact Or.inl (by rw [hbytes, if_neg hnb])
  refine ⟨h.next hG ?_ hctx hfh (fun n hn => ?_) (by rw [hstore]; exact h.addressed),
    ⟨fun b hb hy => ?_, fun b hb hy => ?_, by rw [hstore]; exact hp.stored⟩, hG⟩
  · rw [hos]
    rfl
  · rw [hos, Os.setContent_inodes, update_of_ne]
    rintro rfl
    exact hn i _ hself
  · rw [hbytes]
    split_ifs with hnb
    · rw [hnb.2]
    · rw [hx.touched_next, List.mem_append, List.mem_singleton] at hy
      exact hp.new b hb (hy.resolve_right fun hbi => hnb ⟨rfl, hbi⟩)
  · rw [hx.touched_next, List.mem_append, List.mem_singleton, not_or] at hy
    rw [hbytes, if_neg fun hcond => hy.2 hcond.2]
    exact hp.old b hb hy.1

/-- The store changes, and keeps the chunks. -/
theorem Frame.store (h : T.Frame c) {store : B}
    (hkept : ∀ k d, v.chunk c.store k = some d → v.chunk store k = some d)
    (haddr : Addressed doHash S (v.chunk store)) :
    T.Frame { c with store } ∧ T.Guarantees i c { c with store } :=
  have hG : T.Guarantees i c { c with store } := ⟨fun _ _ => Or.inl rfl, hkept⟩
  ⟨h.next hG rfl rfl rfl (fun _ _ => rfl) haddr, hG⟩

/-- The block of a key is put. -/
theorem put_keeps (h : T.Frame c) {store : B} {d : List UInt8} (hd : d ∈ S)
    (hchunk : v.chunk store =
      update (v.chunk c.store) (doHash d) (some ((v.chunk c.store (doHash d)).getD d))) :
    (∀ k d', v.chunk c.store k = some d' → v.chunk store k = some d') ∧
      Addressed doHash S (v.chunk store) ∧ v.chunk store (doHash d) = some d := by
  obtain ⟨hself, haddr⟩ := h.addressed.put T.inj hd hchunk
  refine ⟨fun k d' hd' => ?_, haddr, by rw [hself, update_self]⟩
  rw [hchunk, update_apply]
  split_ifs with hk
  · rw [← hk, hd', Option.getD_some]
  · exact hd'

/-- Progress does not depend on the store, but for the chunks. -/
theorem Progress.store {y z : ℤ} (h : T.Progress i c y z) {store : B}
    (hkept : ∀ k d, v.chunk c.store k = some d → v.chunk store k = some d) :
    T.Progress i { c with store } y z :=
  ⟨h.new, h.old, fun b hb => hkept _ _ (h.stored b hb)⟩

/-- The block is in the store. -/
theorem Progress.put (h : T.Progress i c (x.i + Client.chunkLen (T.call i).stop x.i) x.i)
    (hx : T.Loops i x) {store : B}
    (hkept : ∀ k d, v.chunk c.store k = some d → v.chunk store k = some d)
    (hself : v.chunk store ((T.job i).newKey (blockIndex x.i)) =
      some ((T.job i).newBlock (blockIndex x.i))) :
    T.Progress i { c with store } (x.i + Client.chunkLen (T.call i).stop x.i)
      (x.i + Client.chunkLen (T.call i).stop x.i) := by
  refine ⟨h.new, h.old, fun b hb => ?_⟩
  rw [hx.touched_next, List.mem_append, List.mem_singleton] at hb
  rcases hb with hb | rfl
  · exact hkept _ _ (h.stored b hb)
  · exact hself

/-- The data of a block, once the part of the buffer is copied over it. -/
theorem data_eq (hst : st.Lasting v) (hx : T.Loops i x) {s : B}
    (hs : v.chunk s ((T.job i).oldKey (blockIndex x.i)) =
      some ((T.job i).oldBlock (blockIndex x.i))) :
    ByteFile.pwrite (baseData st s ((T.job i).oldKey (blockIndex x.i))
        (Client.chunkLen (T.call i).stop x.i))
      (((T.call i).buf.drop (x.i - (T.call i).offset).toNat).take
        (Client.chunkLen (T.call i).stop x.i)) (x.i % 4096).toNat =
      (T.job i).newBlock (blockIndex x.i) := by
  have hread := hst.read s ((T.job i).oldKey (blockIndex x.i))
  rw [hs] at hread
  have hlen : ∀ d, some ((T.job i).oldBlock (blockIndex x.i)) = some d → d.length = 4096 :=
    fun d hd => hst.length _ _ d (hs.trans hd)
  have hdata := (T.job i).blockData_eq_overwritten hread hlen (T.nonneg i) hx.ge hx.lt hx.atBlock
  rw [blockData_eq, Option.getD_some] at hdata
  exact hdata

/-- The size of a file does not grow in the end. -/
theorem writeAct_grow
    (hctx : c.contexts (T.call i).fh = some ⟨T.fd i, ((bytes (T.node i)).length : ℤ)⟩)
    (hsize : x.stSize = ((bytes (T.node i)).length : ℤ)) :
    Client.writeAct doHash st {} (T.call i).fh (T.call i).buf (T.call i).offset (T.call i).junk c
      (.grow x) = some (c, .returned (some ((T.call i).buf.length : ℤ))) := by
  have hgrown : Client.grownSize x.stSize ((T.call i).offset + (T.call i).buf.length) =
      ((bytes (T.node i)).length : ℤ) := by
    have h₀ := T.nonneg i
    have hlt := (T.describes i).lt
    have hinside : (T.call i).offset + ((T.call i).buf.length : ℤ) ≤ (bytes (T.node i)).length :=
      T.inside i
    rw [hsize, Client.grownSize_eq (by omega) (by omega) (by omega) (by omega),
      max_eq_left hinside]
  have hret : int32 ((T.call i).buf.length : ℤ) = (T.call i).buf.length := by
    have := T.short i
    exact int32_of_range (by omega) (by omega)
  have hsame : update c.contexts (T.call i).fh
      (some ⟨T.fd i, ((bytes (T.node i)).length : ℤ)⟩) = c.contexts := by
    rw [← hctx, update_eq_self]
  simp only [Client.writeAct, hctx, Option.map_some, hgrown, hret, hsame]

/-- A step of a write keeps what holds, and does what is guaranteed. -/
theorem writeAct_keeps (hst : st.Lasting v) (hfresh : T.Fresh)
    (hkind : (T.call i).kind = .write) (h : T.Frame c) {pc pc' : WritePc}
    (hpc : T.WriteInv st i c pc)
    (hact : Client.writeAct doHash st {} (T.call i).fh (T.call i).buf (T.call i).offset
      (T.call i).junk c pc = some (c', pc')) :
    T.Frame c' ∧ T.WriteInv st i c' pc' ∧ T.Guarantees i c c' := by
  have h₀ := T.nonneg i
  have hctx := h.context i
  cases pc with
  | start =>
    simp only [Client.writeAct, hctx, Option.map_some, Option.some_inj, Prod.mk.injEq] at hact
    obtain ⟨rfl, rfl⟩ := hact
    refine ⟨h, writeTest_keeps rfl rfl le_rfl ?_ (fun _ => Or.inl rfl) hpc, T.guarantees_self i _⟩
    simp [IoCall.stop]
  | entry x =>
    obtain ⟨hx, hp⟩ := hpc
    simp only [Client.writeAct, Option.some_inj, Prod.mk.injEq] at hact
    obtain ⟨rfl, rfl⟩ := hact
    refine ⟨h, ?_, T.guarantees_self i _⟩
    rw [sizeToWrite_eq hx, hx.readKey_eq h hp]
    split_ifs with hpart
    · exact ⟨hx.setKey _, hp, rfl, by exact_mod_cast hpart⟩
    · refine ⟨hx.setKey _, hp, c₀.store, ?_, (T.covered hx.mem_blocks).2⟩
      rw [baseData, if_neg fun hne => hpart (by exact_mod_cast hne)]
  | base x =>
    obtain ⟨hx, hp, hkey, hpart⟩ := hpc
    simp only [Client.writeAct, Option.some_inj, Prod.mk.injEq] at hact
    obtain ⟨rfl, rfl⟩ := hact
    refine ⟨h, ⟨hx, hp, c.store, ?_, h.kept _ _ (T.covered hx.mem_blocks).2⟩,
      T.guarantees_self i _⟩
    rw [baseData, if_pos hpart, hkey]
  | clear x data =>
    obtain ⟨hx, hp, s, hdata, hs⟩ := hpc
    obtain ⟨⟨store, ret⟩, hdel, heq⟩ := Option.map_eq_some_iff.1 hact
    obtain ⟨rfl, rfl⟩ := Prod.mk.inj heq
    have hchunk : v.chunk store = v.chunk c.store := hst.del_spec hdel
    have hkept : ∀ k d, v.chunk c.store k = some d → v.chunk store k = some d :=
      fun k d hd => by rwa [hchunk]
    obtain ⟨hF, hG⟩ := h.store hkept (by rw [hchunk]; exact h.addressed)
    refine ⟨hF, ⟨hx.setKey _, hp.store hkept, ?_, rfl⟩, hG⟩
    rw [sizeToWrite_eq hx, hdata, Int.toNat_natCast]
    exact data_eq hst hx hs
  | publish x data =>
    obtain ⟨hx, hp, hdata, hkey⟩ := hpc
    have hwrite := Os.pwrite_full (h.ino i) x.hashKey.val (blockIndex x.i * 16 + 16)
    rw [← entryOffset_eq (h₀.trans hx.ge)] at hwrite
    simp only [Client.writeAct, hx.fd, hwrite, x.hashKey.property, Option.some_inj,
      Prod.mk.injEq] at hact
    obtain ⟨rfl, rfl⟩ := hact
    have hnew : x.hashKey = (T.job i).newKey (blockIndex x.i) := by rw [hkey, hdata]; rfl
    set os₁ := c.os.setContent (T.node i)
      ((c.os.inodes (T.node i)).pwrite x.hashKey.val (blockIndex x.i * 16 + 16)) with hos₁
    obtain ⟨hF, hp', hG⟩ : T.Frame { c with os := os₁ } ∧
        T.Progress i { c with os := os₁ } (x.i + Client.chunkLen (T.call i).stop x.i) x.i ∧
        T.Guarantees i c { c with os := os₁ } :=
      publish_keeps h hkind hx hp (by rw [← hnew]) rfl rfl rfl
    exact ⟨hF, ⟨hx, hp', hdata, hkey⟩, hG⟩
  | put x data =>
    obtain ⟨hx, hp, hdata, hkey⟩ := hpc
    obtain ⟨⟨store, ret⟩, hput, heq⟩ := Option.map_eq_some_iff.1 hact
    obtain ⟨rfl, rfl⟩ := Prod.mk.inj heq
    have hlen : data.length = 4096 := by rw [hdata, WriteJob.newBlock, WriteJob.length_overwritten]
    have hS : data ∈ S := by
      rw [hdata]
      exact hfresh i _ _ ⟨hkind, rfl, hx.mem_blocks⟩
    have hnew : doHash data = (T.job i).newKey (blockIndex x.i) := by
      rw [hdata]
      rfl
    rw [hkey] at hput
    obtain ⟨rfl, hchunk⟩ := hst.put_spec hlen hput
    obtain ⟨hkept, haddr, hself⟩ := put_keeps h hS hchunk
    obtain ⟨hF, hG⟩ := h.store hkept haddr
    rw [hnew, hdata] at hself
    refine ⟨hF, ?_, hG⟩
    rw [if_neg (not_not.2 rfl), sizeToWrite_eq hx]
    refine writeTest_keeps hx.fd hx.stSize ?_ (Client.add_chunkLen_le hx.lt.le)
      (atBlock_next hx.ge hx.lt) (hp.put hx hkept hself)
    have := hx.ge
    simp only
    omega
  | grow x =>
    obtain ⟨hsize, hdone⟩ := hpc
    rw [writeAct_grow hctx hsize] at hact
    obtain ⟨rfl, rfl⟩ := Prod.mk.inj (Option.some.inj hact)
    exact ⟨h, ⟨rfl, hdone⟩, T.guarantees_self i _⟩
  | returned ret => cases hact

end Steps

end Batch

end Agilefs
