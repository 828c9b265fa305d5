import Agilefs.SharedRuns
import Agilefs.StoreFiles

/-!
# The client as a file system, with requests at the same time

`FileSys.Together` : requests to the client that may be served at the same time, because they stay
inside their files and no two of them write to the same block.
-/

namespace Agilefs

open CInt Posix Function ByteFile

variable {B P Q ι : Type*}

/-! ## Writes to disjoint ranges -/

section Disjoint

variable {f : ByteFile} {buf : ι → List UInt8} {off : ι → ℕ}

/-- Write `i` covers byte `p`. -/
def Covers (buf : ι → List UInt8) (off : ι → ℕ) (i : ι) (p : ℕ) : Prop :=
  off i ≤ p ∧ p < off i + (buf i).length

/-- A byte the file has before a write. -/
theorem getElem?_pwrite_of_lt {d : List UInt8} {o p : ℕ} (hp : p < f.length) :
    (f.pwrite d o)[p]? =
      some (if o ≤ p ∧ p < o + d.length then d.getD (p - o) 0 else f.getD p 0) := by
  have hf : f[p]? = some (f.getD p 0) := by
    rw [List.getD_eq_getElem?_getD, List.getElem?_eq_getElem hp, Option.getD_some]
  by_cases hd : d = []
  · rw [hd, pwrite_nil, hf, if_neg]
    rintro ⟨h₁, h₂⟩
    exact absurd h₂ (not_lt.2 h₁)
  · rw [getElem?_pwrite f hd, hf]
    by_cases hin : o ≤ p ∧ p < o + d.length
    · rw [if_neg (by omega), if_pos hin.2, if_pos hin, List.getD_eq_getElem?_getD,
        List.getElem?_eq_getElem (by omega), Option.getD_some]
    · rw [if_neg hin]
      split_ifs
      · rfl
      · omega
      · rfl

theorem length_foldl_pwrite : ∀ {order : List ι} {f : ByteFile},
    (∀ i ∈ order, off i + (buf i).length ≤ f.length) →
    (order.foldl (fun f i => f.pwrite (buf i) (off i)) f).length = f.length
  | [], _, _ => rfl
  | i :: order, f, h => by
    have hlen : (f.pwrite (buf i) (off i)).length = f.length :=
      length_pwrite_of_le (h i List.mem_cons_self)
    rw [List.foldl_cons, length_foldl_pwrite fun j hj => ?_, hlen]
    rw [hlen]
    exact h j (List.mem_cons_of_mem i hj)

/-- A byte that is not written. -/
theorem getElem?_foldl_pwrite_of_not_covers {p : ℕ} : ∀ {order : List ι} {f : ByteFile},
    (∀ i ∈ order, off i + (buf i).length ≤ f.length) → (∀ i ∈ order, ¬Covers buf off i p) →
    (order.foldl (fun f i => f.pwrite (buf i) (off i)) f)[p]? = f[p]?
  | [], _, _, _ => rfl
  | i :: order, f, hle, hout => by
    have hi := hle i List.mem_cons_self
    have hlen : (f.pwrite (buf i) (off i)).length = f.length := length_pwrite_of_le hi
    rw [List.foldl_cons, getElem?_foldl_pwrite_of_not_covers (fun j hj => ?_)
      fun j hj => hout j (List.mem_cons_of_mem i hj)]
    · have hnot := hout i List.mem_cons_self
      by_cases hbuf : buf i = []
      · rw [hbuf, pwrite_nil]
      · unfold Covers at hnot
        have hpos := List.length_pos_of_ne_nil hbuf
        rw [getElem?_pwrite f hbuf]
        split_ifs with h₁ h₂
        · rw [List.getElem?_eq_getElem (by omega), Option.getD_some]
        · omega
        · rfl
    · rw [hlen]
      exact hle j (List.mem_cons_of_mem i hj)

/-- A byte that one write covers, whatever the order. -/
theorem getElem?_foldl_pwrite_of_covers {p : ℕ} {i : ι} : ∀ {order : List ι} {f : ByteFile},
    (∀ j ∈ order, off j + (buf j).length ≤ f.length) → i ∈ order →
    (∀ j ∈ order, Covers buf off j p → j = i) → Covers buf off i p →
    (order.foldl (fun f i => f.pwrite (buf i) (off i)) f)[p]? = (buf i)[p - off i]?
  | j :: order, f, hle, hmem, honly, hcov => by
    have hj := hle j List.mem_cons_self
    have hlen : (f.pwrite (buf j) (off j)).length = f.length := length_pwrite_of_le hj
    have hle' : ∀ k ∈ order, off k + (buf k).length ≤ (f.pwrite (buf j) (off j)).length := by
      intro k hk
      rw [hlen]
      exact hle k (List.mem_cons_of_mem j hk)
    rw [List.foldl_cons]
    by_cases hin : i ∈ order
    · exact getElem?_foldl_pwrite_of_covers hle' hin
        (fun k hk => honly k (List.mem_cons_of_mem j hk)) hcov
    · obtain rfl : i = j := (List.mem_cons.1 hmem).resolve_right hin
      rw [getElem?_foldl_pwrite_of_not_covers hle' fun k hk hk' => hin ?_]
      · unfold Covers at hcov
        rw [getElem?_pwrite f (List.ne_nil_of_length_pos (by omega)), if_neg (by omega),
          if_pos (by omega)]
      · rwa [← honly k (List.mem_cons_of_mem i hk) hk']

end Disjoint

/-! ## The bytes of the files -/

namespace Batch

variable {doHash : List UInt8 → Key} {v : StoreView B} {S : Set (List UInt8)} {c₀ c : Client B P}
  {bytes : ℕ → ByteFile} {T : Batch ι doHash v S c₀ bytes} {n : ℕ}

/-- The bytes of file `n` after its writes in the order `order`. -/
def after (T : Batch ι doHash v S c₀ bytes) (order : List ι) (n : ℕ) : ByteFile :=
  (order.filter fun i => (T.call i).kind = .write ∧ T.node i = n).foldl
    (fun f i => f.pwrite (T.call i).buf (T.call i).offset.toNat) (bytes n)

theorem mem_filter {order : List ι} {i : ι} :
    i ∈ order.filter (fun i => (T.call i).kind = .write ∧ T.node i = n) ↔
      i ∈ order ∧ (T.call i).kind = .write ∧ T.node i = n := by
  rw [List.mem_filter, decide_eq_true_eq]

theorem inside_filter {order : List ι} :
    ∀ i ∈ order.filter (fun i => (T.call i).kind = .write ∧ T.node i = n),
      (T.call i).offset.toNat + (T.call i).buf.length ≤ (bytes n).length := by
  intro i hi
  obtain ⟨-, -, rfl⟩ := mem_filter.1 hi
  have h₀ := T.nonneg i
  have hinside := T.inside i
  unfold IoCall.stop at hinside
  omega

theorem length_after (order : List ι) : (T.after order n).length = (bytes n).length :=
  length_foldl_pwrite T.inside_filter

/-- The file `n` with write `i`. -/
def version (T : Batch ι doHash v S c₀ bytes) (n : ℕ) (i : ι) : ByteFile :=
  (bytes n).pwrite (T.call i).buf (T.call i).offset.toNat

/-- A byte that write `i` covers is in one of its blocks. -/
theorem mem_blocks_of_covers {i : ι} {p : ℕ}
    (hcov : Covers (fun i => (T.call i).buf) (fun i => (T.call i).offset.toNat) i p) :
    p / 4096 ∈ (T.call i).blocks := by
  have h₀ := T.nonneg i
  simp only [Covers] at hcov
  rw [IoCall.blocks, mem_touched h₀]
  unfold IoCall.stop
  omega

/-- The bytes of a block as a write makes it. -/
theorem getElem?_version {i : ι} (hi : T.node i = n) {p : ℕ} (hb : p / 4096 ∈ (T.call i).blocks)
    (hp : p < (bytes n).length) :
    (T.version n i)[p]? = ((T.job i).newBlock (p / 4096))[p % 4096]? := by
  subst hi
  have h₀ := T.nonneg i
  have hmod : p % 4096 < 4096 := Nat.mod_lt _ (by decide)
  have hplace : ((p / 4096 : ℕ) : ℤ) * 4096 + (p % 4096 : ℕ) = p := by omega
  obtain ⟨hentry, hchunk⟩ := T.covered hb
  have hold : ((T.job i).oldBlock (p / 4096)).getD (p % 4096) 0 =
      (bytes (T.node i)).getD p 0 := by
    have hkey : v.chunk c₀.store (entryKey (c₀.os.inodes (T.node i)) (p / 4096)) =
        some ((T.job i).oldBlock (p / 4096)) := hchunk
    rw [List.getD_eq_getElem?_getD, List.getD_eq_getElem?_getD, (T.describes i).bytes p hp, byteAt,
      if_pos hentry, hkey, Option.getD_some, List.getD_eq_getElem?_getD, Option.getD_some]
  have hinside : (T.job i).Inside (p / 4096) (p % 4096) ↔
      (T.call i).offset.toNat ≤ p ∧ p < (T.call i).offset.toNat + (T.call i).buf.length := by
    rw [WriteJob.Inside, hplace, WriteJob.stop]
    simp only [job]
    omega
  have hindex : (p - (T.call i).offset).toNat = p - (T.call i).offset.toNat := by omega
  rw [WriteJob.newBlock, (T.job i).getElem?_overwritten _ _ hmod, hold, hplace, version,
    getElem?_pwrite_of_lt hp]
  simp only [hinside]
  rw [job, hindex]

/-- A byte in a block that request `i` writes, after all writes. -/
theorem getElem?_after_of_writes {order : List ι}
    (horder : ∀ i, (T.call i).kind = .write → i ∈ order) {i : ι} {p : ℕ}
    (hi : T.Writes i n (p / 4096)) : (T.after order n)[p]? = (T.version n i)[p]? := by
  have honly : ∀ j ∈ order.filter (fun i => (T.call i).kind = .write ∧ T.node i = n),
      Covers (fun i => (T.call i).buf) (fun i => (T.call i).offset.toNat) j p → j = i := by
    intro j hj hcov
    obtain ⟨-, hkind, hnode⟩ := mem_filter.1 hj
    exact T.writes_unique ⟨hkind, hnode, mem_blocks_of_covers hcov⟩ hi
  have hmem : i ∈ order.filter (fun i => (T.call i).kind = .write ∧ T.node i = n) :=
    mem_filter.2 ⟨horder i hi.1, hi.1, hi.2.1⟩
  have hone : T.version n i = [i].foldl
      (fun f i => f.pwrite (T.call i).buf (T.call i).offset.toNat) (bytes n) := rfl
  have hle : ∀ j ∈ [i], (T.call j).offset.toNat + (T.call j).buf.length ≤ (bytes n).length := by
    intro j hj
    obtain rfl := List.mem_singleton.1 hj
    exact T.inside_filter j hmem
  rw [hone, after]
  by_cases hcov : Covers (fun i => (T.call i).buf) (fun i => (T.call i).offset.toNat) i p
  · rw [getElem?_foldl_pwrite_of_covers T.inside_filter hmem honly hcov,
      getElem?_foldl_pwrite_of_covers hle (List.mem_singleton_self i)
        (fun j hj _ => List.mem_singleton.1 hj) hcov]
  · rw [getElem?_foldl_pwrite_of_not_covers T.inside_filter fun j hj hcov' =>
        hcov (honly j hj hcov' ▸ hcov'),
      getElem?_foldl_pwrite_of_not_covers hle fun j hj => List.mem_singleton.1 hj ▸ hcov]

/-- A byte in a block that no request writes. -/
theorem getElem?_after_of_not_writes {order : List ι} {p : ℕ}
    (hout : ∀ i, ¬T.Writes i n (p / 4096)) : (T.after order n)[p]? = (bytes n)[p]? := by
  refine getElem?_foldl_pwrite_of_not_covers T.inside_filter fun i hi hcov => hout i ?_
  obtain ⟨-, hkind, hnode⟩ := mem_filter.1 hi
  exact ⟨hkind, hnode, mem_blocks_of_covers hcov⟩

/-- An entry after all writes have returned. -/
theorem Frame.entry_cases (h : T.Frame c) (hdone : ∀ i, (T.call i).kind = .write → T.Done i c)
    (n b : ℕ) :
    (∃ i, T.Writes i n b ∧ HasEntry (c.os.inodes n) b ∧
      v.chunk c.store (entryKey (c.os.inodes n) b) = some ((T.job i).newBlock b)) ∨
    (∀ i, ¬T.Writes i n b) ∧
      entryBytes (c.os.inodes n) b = entryBytes (c₀.os.inodes n) b := by
  by_cases hwrites : ∃ i, T.Writes i n b
  · obtain ⟨i, hi⟩ := hwrites
    obtain ⟨hkind, rfl, hb⟩ := id hi
    have hnew := (hdone i hkind).new b hb hb
    have hentry : HasEntry (c.os.inodes (T.node i)) b := by
      rw [HasEntry, hnew, ((T.job i).newKey b).property]
    have hkey : entryKey (c.os.inodes (T.node i)) b = (T.job i).newKey b :=
      Subtype.ext (hentry.entryKey_val.trans hnew)
    exact Or.inl ⟨i, hi, hentry, by rw [hkey]; exact (hdone i hkind).stored b hb⟩
  · rw [not_exists] at hwrites
    refine Or.inr ⟨hwrites, (h.entries n b).resolve_right ?_⟩
    rintro ⟨i, hi, -⟩
    exact hwrites i hi

/-- After all writes have returned, a metafile describes its file with the writes in any order. -/
theorem Frame.describes (h : T.Frame c) (hst : ∀ k d, v.chunk c.store k = some d → d.length = 4096)
    (hdone : ∀ i, (T.call i).kind = .write → T.Done i c) {order : List ι}
    (horder : ∀ i, (T.call i).kind = .write → i ∈ order)
    (hn : Describes (v.chunk c₀.store) (c₀.os.inodes n) (bytes n)) :
    Describes (v.chunk c.store) (c.os.inodes n) (T.after order n) := by
  have hlen := T.length_after (n := n) order
  have hold := hn.mono h.kept
  refine ⟨fun b => ?_, fun b hb => ?_, fun b hb => ?_, fun p hp => ?_, by rw [hlen]; exact hn.lt⟩
  · rcases h.entry_cases hdone n b with ⟨-, -, hentry, -⟩ | ⟨-, hsame⟩
    · exact Or.inl hentry
    · rw [HasEntry, hsame]
      exact hn.whole b
  · rcases h.entry_cases hdone n b with ⟨i, -, -, hchunk⟩ | ⟨-, hsame⟩
    · exact Or.inr (by rw [hchunk]; rfl)
    · rw [HasEntry, hsame] at hb
      rw [entryKey, hsame]
      exact hold.named b hb
  · rw [hlen] at hb
    rcases h.entry_cases hdone n b with ⟨i, -, hentry, hchunk⟩ | ⟨-, hsame⟩
    · exact ⟨hentry, by rw [hchunk]; rfl⟩
    · rw [HasEntry, entryKey, hsame]
      exact hold.covered b hb
  · rw [hlen] at hp
    rcases h.entry_cases hdone n (p / 4096) with ⟨i, hi, hentry, hchunk⟩ | ⟨hout, hsame⟩
    · have hmod : p % 4096 < ((T.job i).newBlock (p / 4096)).length := by
        rw [hst _ _ hchunk]
        omega
      rw [getElem?_after_of_writes horder hi, getElem?_version hi.2.1 hi.2.2 hp, byteAt,
        if_pos hentry, hchunk, Option.getD_some, List.getD_eq_getElem?_getD,
        List.getElem?_eq_getElem hmod, Option.getD_some]
    · rw [getElem?_after_of_not_writes hout, hold.bytes p hp]
      exact congrArg some (if_congr (by rw [HasEntry, HasEntry, hsame])
        (by rw [entryKey, entryKey, hsame]) rfl)

end Batch

/-! ## A file system -/

/-- A request, as one to a client that serves one at a time. -/
def IoCall.fileCall (q : IoCall) : FileCall P :=
  match q.kind with
  | .write => .change (.write q.fh q.buf q.offset q.junk)
  | .read => .read q.fh q.buf q.offset q.junk

namespace FileSys

/-- Requests that may be served at the same time : they stay inside their files, the reads are of
whole blocks or inside one, and no two write to the same block. -/
structure Together (s : FileSys P) (q : ι → IoCall) : Prop where
  opened : ∀ i, s.Opened (q i).fh fun b =>
    0 ≤ (q i).offset ∧ (q i).stop ≤ b.length ∧ (q i).buf.length < 2 ^ 31
  aligned : ∀ i, (q i).kind = .read →
    (q i).offset % 4096 = 0 ∨ (q i).offset % 4096 + (q i).buf.length ≤ 4096
  apart : ∀ i j, i ≠ j → (q i).kind = .write → (q j).kind = .write → (q i).fh = (q j).fh →
    List.Disjoint (q i).blocks (q j).blocks

/-- The file of request `i`. -/
def node (s : FileSys P) (q : ι → IoCall) (i : ι) : ℕ := (s.handles (q i).fh).getD 0

/-- The files after the writes in the order `order`. -/
def written (s : FileSys P) (q : ι → IoCall) (order : List ι) : FileSys P :=
  { s with
    bytes := fun n => (order.filter fun i => (q i).kind = .write ∧ s.node q i = n).foldl
      (fun f i => f.pwrite (q i).buf (q i).offset.toNat) (s.bytes n) }

/-- That is what the requests do one after another. -/
theorem exec_fileCall [DecidableEq P] : ∀ {order : List ι} {s : FileSys P} {q : ι → IoCall},
    (∀ i ∈ order, (s.handles (q i).fh).isSome) →
    Runs.exec (fun s i => (s.step (q i).fileCall).map Prod.fst) s order = some (s.written q order)
  | [], _, _, _ => rfl
  | i :: order, s, q, h => by
    obtain ⟨n, hn⟩ := Option.isSome_iff_exists.1 (h i List.mem_cons_self)
    have hnode : s.node q i = n := by rw [node, hn, Option.getD_some]
    have hrest : ∀ s' : FileSys P, s'.handles = s.handles →
        (s.step (q i).fileCall).map Prod.fst = some s' →
        s'.written q order = s.written q (i :: order) →
        Runs.exec (fun s i => (s.step (q i).fileCall).map Prod.fst) s (i :: order) =
          some (s.written q (i :: order)) := by
      intro s' hs' hstep heq
      rw [Runs.exec, hstep, Option.bind_some, exec_fileCall, heq]
      intro j hj
      rw [hs']
      exact h j (List.mem_cons_of_mem i hj)
    cases hkind : (q i).kind with
    | write =>
      refine hrest (s.setBytes n ((s.bytes n).pwrite (q i).buf (q i).offset.toNat)) rfl ?_ ?_
      · simp only [IoCall.fileCall, hkind, step, change, hn, Option.map_some]
      · refine congrArg (fun bytes => { s with bytes }) (funext fun m => ?_)
        by_cases hm : s.node q i = m
        · rw [List.filter_cons_of_pos (by simp [hkind, hm]), List.foldl_cons, ← hm, hnode]
          simp only [setBytes, update_self]
          rfl
        · rw [List.filter_cons_of_neg (by simp [hm])]
          simp only [setBytes, update_of_ne (hnode ▸ Ne.symm hm)]
          rfl
    | read =>
      refine hrest s rfl ?_ ?_
      · simp only [IoCall.fileCall, hkind, step, hn, Option.map_some]
      · refine congrArg (fun bytes => { s with bytes }) (funext fun m => ?_)
        rw [List.filter_cons_of_neg (by simp [hkind])]

/-- Request `i` writes to block `b` of file `n`. -/
def Writes (s : FileSys P) (q : ι → IoCall) (i : ι) (n b : ℕ) : Prop :=
  (q i).kind = .write ∧ s.handles (q i).fh = some n ∧ b ∈ (q i).blocks

/-- The file of which a read of block `b` of file `n` gets a part, if it began at `t₁` and returned
at `t₂` : the file with one of the writes to the block, which began before `t₂`, or the file as it
was, if no write to the block had returned at `t₁`. It gets nothing if a write had not returned at
`t₁` whose block was `absent`. -/
def Gets (s : FileSys P) (q : ι → IoCall) (absent : ι → ℕ → Prop)
    (t₁ t₂ : Threads ι (Client B P) IoPc) (n b : ℕ) (version : Option ByteFile) : Prop :=
  (∃ j, s.Writes q j n b ∧ (t₂.own j).Begun ∧
    (version = some ((s.bytes n).pwrite (q j).buf (q j).offset.toNat) ∨
      version = none ∧ absent j b ∧ (t₁.own j).reply = none)) ∨
  version = some (s.bytes n) ∧ ∀ j, s.Writes q j n b → (t₁.own j).reply = none

/-- What a read returns that gets the blocks of its request from the files `version`. -/
structure Returns (q : IoCall) (version : ℕ → Option ByteFile) (r : FileReply) : Prop where
  ret : r.ret = some (int32 (q.blocks.map fun b =>
    if (version b).isSome then (Client.chunkLen q.stop (partStart q.offset b) : ℤ) else -1).sum)
  length : r.buf.length = q.buf.length
  bytes : ∀ p < q.buf.length, r.buf[p]? = match version ((q.offset.toNat + p) / 4096) with
    | some f => f[q.offset.toNat + p]?
    | none => q.buf[p]?

end FileSys

/-- The view of a store with the calls to it. -/
def StoreView.recorded (v : StoreView B) : StoreView (B × List StoreCall) where
  chunk s := v.chunk s.1
  refs s := v.refs s.1

/-- A lasting store is one with the calls to it. -/
theorem BlockStore.Lasting.recorded {st : BlockStore B} {v : StoreView B} (hst : st.Lasting v) :
    st.recorded.Lasting v.recorded := by
  refine ⟨fun s => hst.length s.1, fun s => hst.absent s.1, fun s => hst.present s.1,
    fun s k d => ?_, fun s k => ?_⟩
  · obtain ⟨s', ret, hput, hspec⟩ := hst.put s.1 k d
    exact ⟨(s', s.2 ++ [.put k d]), ret, by simp only [BlockStore.recorded, hput, Option.map_some],
      hspec⟩
  · obtain ⟨s', ret, hdel, hspec⟩ := hst.del s.1 k
    exact ⟨(s', s.2 ++ [.del k]), ret, by simp only [BlockStore.recorded, hdel, Option.map_some],
      hspec⟩

namespace Client

variable {doHash : List UInt8 → Key} {v : StoreView B} {S : Set (List UInt8)}
  {c : Client (B × List StoreCall) P} {s : FileSys P} {q : ι → IoCall}

/-- The file of a request. -/
theorem Mirrors.opened (h : c.Mirrors doHash v S s) (hq : s.Together q) (i : ι) :
    ∃ n fd, s.handles (q i).fh = some n ∧
      c.contexts (q i).fh = some ⟨fd, ((s.bytes n).length : ℤ)⟩ ∧ c.os.ino fd = some n ∧
      Describes (v.chunk c.store.1) (c.os.inodes n) (s.bytes n) ∧ 0 ≤ (q i).offset ∧
      (q i).stop ≤ (s.bytes n).length ∧ (q i).buf.length < 2 ^ 31 := by
  obtain ⟨n, hn, hcond⟩ := hq.opened i
  obtain ⟨-, -, fd, hctx, hino, -⟩ := h.handles _ n hn
  exact ⟨n, fd, hn, hctx, hino, h.describes n (Or.inr ⟨_, hn⟩), hcond⟩

/-- The requests, on the metafiles of the client. -/
def Mirrors.batch (h : c.Mirrors doHash v S s) (hq : s.Together q) (hinj : S.InjOn doHash) :
    Batch ι doHash v.recorded S c s.bytes where
  call := q
  node := s.node q
  fd i := ((c.contexts (q i).fh).map FileContext.fd).getD 0
  context i := by
    obtain ⟨n, fd, hn, hctx, -⟩ := h.opened hq i
    rw [FileSys.node, hn, hctx]
    rfl
  ino i := by
    obtain ⟨n, fd, hn, hctx, hino, -⟩ := h.opened hq i
    rw [FileSys.node, hn, hctx]
    exact hino
  describes i := by
    obtain ⟨n, fd, hn, -, -, hdesc, -⟩ := h.opened hq i
    rw [FileSys.node, hn]
    exact hdesc
  nonneg i := by
    obtain ⟨n, fd, -, -, -, -, h₀, -⟩ := h.opened hq i
    exact h₀
  inside i := by
    obtain ⟨n, fd, hn, -, -, -, -, hle, -⟩ := h.opened hq i
    rw [FileSys.node, hn]
    exact hle
  short i := by
    obtain ⟨n, fd, -, -, -, -, -, -, hlt⟩ := h.opened hq i
    exact hlt
  apart i j hne hi hj hnode := by
    obtain ⟨n, -, hn, -⟩ := h.opened hq i
    obtain ⟨m, -, hm, -⟩ := h.opened hq j
    rw [FileSys.node, FileSys.node, hn, hm] at hnode
    obtain rfl : n = m := hnode
    exact hq.apart i j hne hi hj (h.alone _ _ n hn hm)
  addressed := h.addressed
  inj := hinj

theorem Mirrors.batch_node (h : c.Mirrors doHash v S s) (hq : s.Together q)
    (hinj : S.InjOn doHash) (i : ι) (n : ℕ) :
    (h.batch hq hinj).node i = n ↔ s.handles (q i).fh = some n := by
  obtain ⟨m, -, hm, -⟩ := h.opened hq i
  have hnode : (h.batch hq hinj).node i = m := by
    show s.node q i = m
    rw [FileSys.node, hm, Option.getD_some]
  rw [hnode, hm, Option.some_inj]

theorem Mirrors.batch_writes (h : c.Mirrors doHash v S s) (hq : s.Together q)
    (hinj : S.InjOn doHash) (i : ι) (n b : ℕ) :
    (h.batch hq hinj).Writes i n b ↔ s.Writes q i n b :=
  and_congr_right fun _ => and_congr_left fun _ => h.batch_node hq hinj i n

/-- The client when all writes are done. -/
theorem Mirrors.after (h : c.Mirrors doHash v S s) (hq : s.Together q) (hinj : S.InjOn doHash)
    {c' : Client (B × List StoreCall) P} (hF : (h.batch hq hinj).Frame c')
    (hlen : ∀ k d, v.chunk c'.store.1 k = some d → d.length = 4096)
    (hdone : ∀ i, (q i).kind = .write → (h.batch hq hinj).Done i c') {order : List ι}
    (horder : ∀ i, (q i).kind = .write → i ∈ order) :
    c'.Mirrors doHash v S (s.written q order) := by
  set T := h.batch hq hinj with hT
  have hlength : ∀ n, ((s.written q order).bytes n).length = (s.bytes n).length :=
    fun n => T.length_after order
  refine ⟨fun p => ?_, h.named, h.inj, fun fh n hn => ?_, h.alone, fun n hn => ?_,
    fun p n hp hclosed => ?_, ?_, hF.nextFh.trans h.nextFh, hF.addressed⟩
  · rw [hF.os]
    exact h.names p
  · obtain ⟨hlt, hlt', fd, hctx, hino, hfd⟩ := h.handles fh n hn
    refine ⟨hlt, hlt', fd, ?_, ?_, ?_⟩
    · rw [hF.contexts, hlength]
      exact hctx
    · rw [hF.os]
      exact hino
    · rw [hF.os]
      exact hfd
  · exact hF.describes hlen hdone horder (h.describes n hn)
  · -- no request is on a file that is closed
    have hout : ∀ i, T.node i ≠ n := fun i hi =>
      hclosed (q i).fh ((h.batch_node hq hinj i n).1 hi)
    have hbytes : (s.written q order).bytes n = s.bytes n := by
      show ((order.filter fun i => (q i).kind = .write ∧ T.node i = n).foldl _ _ : ByteFile) = _
      rw [List.filter_eq_nil_iff.2 fun i _ => by simp [hout i]]
      rfl
    rw [hF.inodes n fun i b hi => hout i hi.2.1, hbytes]
    exact h.saved p n hp hclosed
  · rw [hF.os]
    exact h.nextFile

section Runs

variable [DecidableEq ι] {st : BlockStore B} {sched s₁ s₂ : List ι}
  {t t₁ t₂ : Threads ι (Client (B × List StoreCall) P) IoPc}

/-- The steps of the requests `q`. -/
def together {B : Type*} (doHash : List UInt8 → Key) (st : BlockStore B) (q : ι → IoCall) :
    Threads ι (Client B P) IoPc → ι → Option (Threads ι (Client B P) IoPc) :=
  Threads.step fun i => act doHash st {} (q i)

/-- Block `b` of file `n` as the write `q` makes it, of the chunks `chunk`. -/
def newBlock {B : Type*} (doHash : List UInt8 → Key) (chunk : Key → Option (List UInt8))
    (c : Client B P) (n : ℕ) (q : IoCall) (b : ℕ) : List UInt8 :=
  WriteJob.newBlock ⟨doHash, c.os.inodes n, chunk, fun _ => 0, q.buf, q.offset, q.junk⟩ b

/-- The blocks that the writes make are in `S`. -/
def Fresh {B : Type*} (doHash : List UInt8 → Key) (chunk : Key → Option (List UInt8))
    (S : Set (List UInt8)) (c : Client B P) (s : FileSys P) (q : ι → IoCall) : Prop :=
  ∀ i n b, s.Writes q i n b → c.newBlock doHash chunk n (q i) b ∈ S

omit [DecidableEq ι] in
theorem Mirrors.batch_fresh (h : c.Mirrors doHash v S s) (hq : s.Together q)
    (hinj : S.InjOn doHash) (hfresh : c.Fresh doHash (v.chunk c.store.1) S s q) :
    (h.batch hq hinj).Fresh := by
  intro i n b hi
  have hnew := hfresh i n b ((h.batch_writes hq hinj i n b).1 hi)
  obtain ⟨-, rfl, -⟩ := hi
  exact hnew

/-- There is no chunk yet with the key of block `b` as request `i` makes it. -/
def Absent {B : Type*} (doHash : List UInt8 → Key) (chunk : Key → Option (List UInt8))
    (c : Client B P) (s : FileSys P) (q : ι → IoCall) (i : ι) (b : ℕ) : Prop :=
  chunk (doHash (c.newBlock doHash chunk (s.node q i) (q i) b)) = none

/-- After the writes have returned, the client stands for the file system where they are done one
after another, in any order. -/
theorem Mirrors.written (hst : st.Lasting v) (hinj : S.InjOn doHash) (h : c.Mirrors doHash v S s)
    (hq : s.Together q) (hfresh : c.Fresh doHash (v.chunk c.store.1) S s q)
    (hexec : Runs.exec (together doHash st.recorded q) (c.begin q) sched = some t)
    (hret : ∀ i, (q i).kind = .write → (t.own i).reply.isSome) {order : List ι}
    (horder : ∀ i, (q i).kind = .write → i ∈ order) :
    (∀ i, (q i).kind = .write → (t.own i).reply = some { ret := some ((q i).buf.length : ℤ) }) ∧
      t.shared.Mirrors doHash v S (s.written q order) := by
  set T := h.batch hq hinj with hT
  have hfresh' : T.Fresh := h.batch_fresh hq hinj hfresh
  obtain ⟨⟨hF, -⟩, -⟩ := (T.holds_begin st.recorded).exec hst.recorded hfresh' hq.aligned hexec
  have hdone : ∀ i, (q i).kind = .write →
      (t.own i).reply = some { ret := some ((q i).buf.length : ℤ) } ∧ T.Done i t.shared := by
    intro i hkind
    obtain ⟨r, hr⟩ := Option.isSome_iff_exists.1 (hret i hkind)
    obtain ⟨rfl, hdone⟩ := T.write_returned hst.recorded hfresh' hq.aligned hexec hkind hr
    exact ⟨hr, hdone⟩
  exact ⟨fun i hi => (hdone i hi).1, h.after hq hinj hF (fun k d => hst.length _ k d)
    (fun i hi => (hdone i hi).2) horder⟩

omit [DecidableEq ι] in
/-- What a read gets of a block is a part of a file. -/
theorem Mirrors.exists_version (hst : st.Lasting v) (h : c.Mirrors doHash v S s)
    (hq : s.Together q) (hinj : S.InjOn doHash) {i : ι} {b : ℕ} (hb : b ∈ (q i).blocks)
    {got : Option (List UInt8)}
    (hgets : (h.batch hq hinj).Gets t₁ t₂ (s.node q i) b got) :
    ∃ version, s.Gets q (c.Absent doHash (v.chunk c.store.1) s q) t₁ t₂ (s.node q i) b version ∧
      got.isSome = version.isSome ∧
      ∀ p d f, p / 4096 = b → p < (s.bytes (s.node q i)).length → got = some d →
        version = some f → d[p % 4096]? = f[p]? := by
  set T := h.batch hq hinj with hT
  have hwrites := h.batch_writes hq hinj
  rcases hgets with ⟨j, hj, hbegun, hnew | ⟨hnone, habsent, hrun⟩⟩ | ⟨hold, hout⟩
  · refine ⟨some (T.version (s.node q i) j), Or.inl ⟨j, (hwrites j _ b).1 hj, hbegun, Or.inl rfl⟩,
      by rw [hnew, Option.isSome_some, Option.isSome_some], ?_⟩
    rintro p d f rfl hp hd hf
    obtain rfl := Option.some.inj (hnew.symm.trans hd)
    obtain rfl := Option.some.inj hf
    exact (T.getElem?_version hj.2.1 hj.2.2 hp).symm
  · refine ⟨none, Or.inl ⟨j, (hwrites j _ b).1 hj, hbegun, Or.inr ⟨rfl, habsent, hrun⟩⟩,
      by rw [hnone], fun p d f _ _ _ hf => ?_⟩
    cases hf
  · obtain ⟨hentry, hchunk⟩ := T.covered hb
    have hsome : got = some ((T.job i).oldBlock b) := hold.trans hchunk
    refine ⟨some (s.bytes (s.node q i)), Or.inr ⟨rfl, fun j hj => hout j ((hwrites j _ b).2 hj)⟩,
      by rw [hsome, Option.isSome_some, Option.isSome_some], ?_⟩
    rintro p d f rfl hp hd hf
    obtain rfl := Option.some.inj hf
    have hd' : v.chunk c.store.1 (entryKey (c.os.inodes (s.node q i)) (p / 4096)) = some d := by
      rw [← hd, hold]
      rfl
    have hdesc : Describes (v.chunk c.store.1) (c.os.inodes (s.node q i))
        (s.bytes (s.node q i)) := T.describes i
    exact hdesc.byte_eq hp hd' (hst.length _ _ d hd')

/-- What a read of the file with handle `fh` returns, while the other requests are served. -/
theorem Mirrors.reads (hst : st.Lasting v) (hinj : S.InjOn doHash) (h : c.Mirrors doHash v S s)
    (hq : s.Together q) (hfresh : c.Fresh doHash (v.chunk c.store.1) S s q)
    (h₁ : Runs.exec (together doHash st.recorded q) (c.begin q) s₁ = some t₁)
    (h₂ : Runs.exec (together doHash st.recorded q) t₁ s₂ = some t₂) {i : ι}
    (hstart : ¬(t₁.own i).Begun) (hkind : (q i).kind = .read) {r : FileReply}
    (hr : (t₂.own i).reply = some r) :
    ∃ version, (∀ b ∈ (q i).blocks, s.Gets q (c.Absent doHash (v.chunk c.store.1) s q) t₁ t₂
      (s.node q i) b (version b)) ∧ FileSys.Returns (q i) version r := by
  set T := h.batch hq hinj with hT
  obtain ⟨got, hgets, hret, hlen, hbytes⟩ := T.read_returned hst.recorded
    (h.batch_fresh hq hinj hfresh) hq.aligned h₁ h₂ hstart hkind hr
  -- a file for each block that is read
  have hversion : ∀ b, ∃ version : Option ByteFile, b ∈ (q i).blocks →
      s.Gets q (c.Absent doHash (v.chunk c.store.1) s q) t₁ t₂ (s.node q i) b version ∧
      (got b).isSome = version.isSome ∧
      ∀ p d f, p / 4096 = b → p < (s.bytes (s.node q i)).length → got b = some d →
        version = some f → d[p % 4096]? = f[p]? := by
    intro b
    by_cases hb : b ∈ (q i).blocks
    · obtain ⟨version, hversion⟩ := h.exists_version hst hq hinj hb (hgets b hb)
      exact ⟨version, fun _ => hversion⟩
    · exact ⟨none, fun hmem => absurd hmem hb⟩
  choose version hversion using hversion
  refine ⟨version, fun b hb => (hversion b hb).1, ?_, hlen, fun p hp => ?_⟩
  · rw [hret]
    congr 3
    refine List.map_congr_left fun b hb => ?_
    rw [Batch.countOf, (hversion b hb).2.1]
    rfl
  · have h₀ := T.nonneg i
    have hinside : (q i).stop ≤ (s.bytes (s.node q i)).length := T.inside i
    have hstop : (q i).stop = (q i).offset + (q i).buf.length := rfl
    have h₀' : 0 ≤ (q i).offset := h₀
    have hmem : ((q i).offset.toNat + p) / 4096 ∈ (q i).blocks := by
      rw [IoCall.blocks, mem_touched h₀']
      omega
    obtain ⟨-, hsome, heq⟩ := hversion _ hmem
    have hplace := hbytes p hp
    have hlt : (q i).offset.toNat + p < (s.bytes (s.node q i)).length := by omega
    have hcall : T.call i = q i := rfl
    rw [hplace, Batch.byteOf, hcall]
    cases hg : got (((q i).offset.toNat + p) / 4096) with
    | none =>
      rw [hg, Option.isSome_none] at hsome
      rw [Option.not_isSome_iff_eq_none.1 (Bool.eq_false_iff.1 hsome.symm)]
    | some d =>
      rw [hg, Option.isSome_some] at hsome
      obtain ⟨f, hf⟩ := Option.isSome_iff_exists.1 hsome.symm
      rw [hf]
      exact heq _ d f rfl hlt hg hf

end Runs

end Client

end Agilefs
