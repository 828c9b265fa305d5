import Agilefs.SharedReads

/-!
# Runs of requests

A batch of requests takes its steps in any order. `exec_keeps` : all that the steps of the writes
and the reads keep holds after every schedule. `exec_length_le` : no schedule is longer than five
steps for each block written and two for each block read, and one that cannot go on has let every
request return (`stuck_returned`).

What holds is told apart by the requests `D i` that had returned when request `i` began. For a
request that has not begun they may be chosen late (`ThreadInv.late`), which is how the order of the
requests in time comes in.
-/

namespace Agilefs

open CInt Posix Function ByteFile

variable {B P ι : Type*}

/-- The request has begun. -/
def IoPc.Begun : IoPc → Prop
  | .writing .start | .reading .start => False
  | _ => True

instance : ∀ pc, Decidable (IoPc.Begun pc)
  | .writing .start | .reading .start => isFalse id
  | .writing (.entry _) | .writing (.base _) | .writing (.clear _ _) | .writing (.publish _ _)
  | .writing (.put _ _) | .writing (.grow _) | .writing (.returned _) => isTrue trivial
  | .reading (.entry _) | .reading (.block _) | .reading (.returned _ _) => isTrue trivial

namespace Batch

variable {doHash : List UInt8 → Key} {v : StoreView B} {S : Set (List UInt8)} {c₀ : Client B P}
  {bytes : ℕ → ByteFile}

/-! ## What holds -/

/-- What holds when request `i` is about to take a step. -/
def IoInv (T : Batch ι doHash v S c₀ bytes) (st : BlockStore B) (D : ι → Prop) (i : ι)
    (c : Client B P) : IoPc → Prop
  | .writing pc => (T.call i).kind = .write ∧ T.WriteInv st i c pc
  | .reading pc => (T.call i).kind = .read ∧ T.ReadInv D i c pc

/-- It holds, and the request has returned if another began after this. -/
def ThreadInv (T : Batch ι doHash v S c₀ bytes) (st : BlockStore B) (D : ι → ι → Prop) (i : ι)
    (c : Client B P) (pc : IoPc) : Prop :=
  T.IoInv st (D i) i c pc ∧ ∀ k, D k i → pc.reply.isSome

/-- What holds of the shared state. -/
def Common (T : Batch ι doHash v S c₀ bytes) (D : ι → ι → Prop) (c : Client B P) : Prop :=
  T.Frame c ∧ ∀ k, T.Settled (D k) c

variable {T : Batch ι doHash v S c₀ bytes} {st : BlockStore B} {D : ι → ι → Prop} {i j : ι}
  {c c' : Client B P}

/-! ## The other requests -/

theorem WriteInv.rely {pc : WritePc} (h : T.WriteInv st i c pc) (hkind : (T.call i).kind = .write)
    (hne : i ≠ j) (hG : T.Guarantees j c c') : T.WriteInv st i c' pc := by
  cases pc with
  | start => exact Progress.rely h hkind hne hG
  | entry x => exact ⟨h.1, h.2.rely hkind hne hG⟩
  | base x | clear x data | publish x data | put x data =>
    exact ⟨h.1, h.2.1.rely hkind hne hG, h.2.2⟩
  | grow x | returned ret => exact ⟨h.1, Progress.rely h.2 hkind hne hG⟩

theorem ReadInv.rely {D : ι → Prop} {pc : ReadPc} (h : T.ReadInv D i c pc)
    (hG : T.Guarantees j c c') : T.ReadInv D i c' pc := by
  cases pc with
  | start => trivial
  | entry x =>
    obtain ⟨hx, got, hgot⟩ := h
    exact ⟨hx, got, hgot.rely hG⟩
  | block x =>
    obtain ⟨hx, ⟨got, hgot⟩, hnames⟩ := h
    exact ⟨hx, ⟨got, hgot.rely hG⟩, hnames.rely hG⟩
  | returned buf ret =>
    obtain ⟨got, rdcount, hret, hgot⟩ := h
    exact ⟨got, rdcount, hret, hgot.rely hG⟩

theorem ThreadInv.rely {pc : IoPc} (h : T.ThreadInv st D i c pc) (hne : i ≠ j)
    (hG : T.Guarantees j c c') : T.ThreadInv st D i c' pc := by
  refine ⟨?_, h.2⟩
  cases pc with
  | writing pc => exact ⟨h.1.1, WriteInv.rely h.1.2 h.1.1 hne hG⟩
  | reading pc => exact ⟨h.1.1, ReadInv.rely h.1.2 hG⟩

/-! ## A step -/

/-- A request that has returned takes no step. -/
theorem act_returned {q : IoCall} {pc : IoPc} (h : pc.reply.isSome) :
    Client.act doHash st {} q c pc = none := by
  cases pc with
  | writing pc => cases pc <;> first | rfl | cases h
  | reading pc => cases pc <;> first | rfl | cases h

/-- A step keeps what holds, and does what is guaranteed. -/
theorem act_keeps (hst : st.Lasting v) (hfresh : T.Fresh) (haligned : T.Aligned)
    (hC : T.Common D c) {pc pc' : IoPc} (h : T.ThreadInv st D i c pc)
    (hact : Client.act doHash st {} (T.call i) c pc = some (c', pc')) :
    T.Common D c' ∧ T.ThreadInv st D i c' pc' ∧ T.Guarantees i c c' := by
  obtain ⟨hF, hD⟩ := hC
  have hout : ∀ k, ¬D k i := by
    intro k hk
    rw [act_returned (h.2 k hk)] at hact
    cases hact
  have hstep : T.Frame c' ∧ T.IoInv st (D i) i c' pc' ∧ T.Guarantees i c c' := by
    cases pc with
    | writing pc =>
      obtain ⟨hkind, hpc⟩ := h.1
      obtain ⟨⟨c₁, pc₁⟩, hwrite, heq⟩ := Option.map_eq_some_iff.1 hact
      obtain ⟨rfl, rfl⟩ := Prod.mk.inj heq
      obtain ⟨hF', hpc', hG⟩ := writeAct_keeps hst hfresh hkind hF hpc hwrite
      exact ⟨hF', ⟨hkind, hpc'⟩, hG⟩
    | reading pc =>
      obtain ⟨hkind, hpc⟩ := h.1
      obtain ⟨⟨c₁, pc₁⟩, hread, heq⟩ := Option.map_eq_some_iff.1 hact
      obtain ⟨rfl, rfl⟩ := Prod.mk.inj heq
      obtain ⟨rfl, hpc'⟩ := readAct_keeps hst hfresh haligned hkind hF (hD i) hpc hread
      exact ⟨hF, ⟨hkind, hpc'⟩, T.guarantees_self i _⟩
  obtain ⟨hF', hpc', hG⟩ := hstep
  refine ⟨⟨hF', fun k j hj hkind => ?_⟩, ⟨hpc', fun k hk => (hout k hk).elim⟩, hG⟩
  have hne : j ≠ i := by
    rintro rfl
    exact hout k hj
  exact (hD k j hj hkind).rely hkind hne hG

/-! ## Schedules -/

variable [DecidableEq ι] {t t' : Threads ι (Client B P) IoPc} {sched : List ι}

/-- A step of the requests `T`. -/
def step (T : Batch ι doHash v S c₀ bytes) (st : BlockStore B) :
    Threads ι (Client B P) IoPc → ι → Option (Threads ι (Client B P) IoPc) :=
  Threads.step fun i => Client.act doHash st {} (T.call i)

/-- The requests before they begin. -/
def begin (T : Batch ι doHash v S c₀ bytes) : Threads ι (Client B P) IoPc := c₀.begin T.call

/-- After any schedule. -/
theorem exec_keeps (hst : st.Lasting v) (hfresh : T.Fresh) (haligned : T.Aligned)
    (hC : T.Common D t.shared) (hI : ∀ i, T.ThreadInv st D i t.shared (t.own i))
    (h : Runs.exec (T.step st) t sched = some t') :
    T.Common D t'.shared ∧ ∀ i, T.ThreadInv st D i t'.shared (t'.own i) :=
  Threads.exec_invariant
    (fun _ _ _ _ _ hC hI hact => act_keeps hst hfresh haligned hC hI hact)
    (fun _ _ _ _ _ hne hI hG => hI.rely hne hG) hC hI h

/-- What holds at any time. -/
def Holds (T : Batch ι doHash v S c₀ bytes) (st : BlockStore B)
    (t : Threads ι (Client B P) IoPc) : Prop :=
  T.Common (fun _ _ => False) t.shared ∧
    ∀ i, T.ThreadInv st (fun _ _ => False) i t.shared (t.own i)

theorem Holds.exec (hI : T.Holds st t) (hst : st.Lasting v) (hfresh : T.Fresh)
    (haligned : T.Aligned) (h : Runs.exec (T.step st) t sched = some t') : T.Holds st t' :=
  exec_keeps hst hfresh haligned hI.1 hI.2 h

theorem Holds.step (hI : T.Holds st t) (hst : st.Lasting v) (hfresh : T.Fresh)
    (haligned : T.Aligned) (h : T.step st t i = some t') : T.Holds st t' := by
  have hone : Runs.exec (T.step st) t [i] = some t' := by
    rw [Runs.exec, h]
    rfl
  exact hI.exec hst hfresh haligned hone

omit [DecidableEq ι] in
theorem holds_begin (T : Batch ι doHash v S c₀ bytes) (st : BlockStore B) :
    T.Holds st T.begin := by
  refine ⟨⟨T.frame_start, fun _ _ hj => hj.elim⟩, fun i => ⟨?_, fun _ hk => hk.elim⟩⟩
  show T.IoInv st _ i c₀ (T.call i).kind.start
  cases hkind : (T.call i).kind with
  | write =>
    refine ⟨hkind, ⟨fun b _ hb => ?_, fun b _ _ => rfl, fun b hb => ?_⟩⟩
    · rw [touched_self] at hb
      cases hb
    · rw [touched_self] at hb
      cases hb
  | read => exact ⟨hkind, trivial⟩

/-! ## What the requests return -/

variable {s₁ s₂ : List ι} {t₁ t₂ : Threads ι (Client B P) IoPc}

omit [DecidableEq ι] in
/-- Where a write is that has returned. -/
theorem IoInv.write_pc {D : ι → Prop} {pc : IoPc} (h : T.IoInv st D i c pc)
    (hkind : (T.call i).kind = .write) {r : FileReply} (hr : pc.reply = some r) :
    pc = .writing (.returned r.ret) ∧ r = { ret := r.ret } := by
  cases pc with
  | writing pc =>
    cases pc with
    | returned ret =>
      obtain rfl := Option.some.inj hr
      exact ⟨rfl, rfl⟩
    | _ => cases hr
  | reading pc => exact absurd (h.1.symm.trans hkind) (by decide)

omit [DecidableEq ι] in
/-- Where a read is that has returned. -/
theorem IoInv.read_pc {D : ι → Prop} {pc : IoPc} (h : T.IoInv st D i c pc)
    (hkind : (T.call i).kind = .read) {r : FileReply} (hr : pc.reply = some r) :
    pc = .reading (.returned r.buf r.ret) := by
  cases pc with
  | writing pc => exact absurd (h.1.symm.trans hkind) (by decide)
  | reading pc =>
    cases pc with
    | returned buf ret =>
      obtain rfl := Option.some.inj hr
      rfl
    | _ => cases hr

/-- What a write returns, and what it has done then. -/
theorem write_returned (hst : st.Lasting v) (hfresh : T.Fresh) (haligned : T.Aligned)
    (h : Runs.exec (T.step st) T.begin sched = some t) (hkind : (T.call i).kind = .write)
    {r : FileReply} (hr : (t.own i).reply = some r) :
    r = { ret := some ((T.call i).buf.length : ℤ) } ∧ T.Done i t.shared := by
  obtain ⟨hpc, -⟩ := ((T.holds_begin st).exec hst hfresh haligned h).2 i
  obtain ⟨hown, hret⟩ := hpc.write_pc hkind hr
  rw [hown] at hpc
  obtain ⟨-, hall, hdone⟩ := hpc
  exact ⟨by rw [hret, hall], hdone⟩

omit [DecidableEq ι] in
/-- A request that has returned has begun. -/
theorem begun_of_reply {pc : IoPc} (h : pc.reply.isSome) : pc.Begun := by
  cases pc with
  | writing pc => cases pc <;> trivial
  | reading pc => cases pc <;> trivial

omit [DecidableEq ι] in
/-- A write that has not begun finds its entries as they were. -/
theorem IoInv.entry_old {D : ι → Prop} {pc : IoPc} (h : T.IoInv st D i c pc) (hbegun : ¬pc.Begun)
    {n b : ℕ} (hwrites : T.Writes i n b) :
    entryBytes (c.os.inodes n) b = entryBytes (c₀.os.inodes n) b := by
  obtain ⟨hkind, rfl, hb⟩ := hwrites
  cases pc with
  | writing pc =>
    cases pc with
    | start => exact h.2.old b hb (by rw [touched_self]; exact List.not_mem_nil)
    | _ => exact absurd trivial hbegun
  | reading pc => exact absurd (h.1.symm.trans hkind) (by decide)

/-- Request `j` has returned at `t`, and request `i` has not begun. -/
def Precedes (t : Threads ι (Client B P) IoPc) (i j : ι) : Prop :=
  ¬(t.own i).Begun ∧ (t.own j).reply.isSome

/-- What holds may be told apart by the requests that have returned by now, for those that have not
begun. -/
theorem exec_late (hst : st.Lasting v) (hfresh : T.Fresh) (haligned : T.Aligned)
    (h : Runs.exec (T.step st) T.begin sched = some t) :
    T.Common (Precedes t) t.shared ∧
      ∀ i, T.ThreadInv st (Precedes t) i t.shared (t.own i) := by
  obtain ⟨⟨hF, -⟩, hI'⟩ := (T.holds_begin st).exec hst hfresh haligned h
  refine ⟨⟨hF, fun k j hj hkind => ?_⟩, fun i => ⟨?_, fun k hk => hk.2⟩⟩
  · obtain ⟨r, hr⟩ := Option.isSome_iff_exists.1 hj.2
    exact (write_returned hst hfresh haligned h hkind hr).2
  · have hpc := (hI' i).1
    by_cases hbegun : (t.own i).Begun
    · have hnone : Precedes t i = fun _ => False :=
        funext fun j => eq_false fun hj => hj.1 hbegun
      rw [hnone]
      exact hpc
    · cases hown : t.own i with
      | writing pc =>
        rw [hown] at hpc
        exact hpc
      | reading pc =>
        rw [hown] at hpc hbegun
        cases pc with
        | start => exact ⟨hpc.1, trivial⟩
        | _ => exact absurd trivial hbegun

/-- What a read of block `b` of file `n` gets that began at `t₁` and returned at `t₂` : the block as
a write makes it that began before `t₂`, nothing if this write had not returned at `t₁`, or the
block as it was, if no write to it had returned at `t₁`. -/
def Gets (T : Batch ι doHash v S c₀ bytes) (t₁ t₂ : Threads ι (Client B P) IoPc) (n b : ℕ)
    (got : Option (List UInt8)) : Prop :=
  (∃ j, T.Writes j n b ∧ (t₂.own j).Begun ∧ (got = some ((T.job j).newBlock b) ∨
    got = none ∧ v.chunk c₀.store ((T.job j).newKey b) = none ∧ (t₁.own j).reply = none)) ∨
  got = v.chunk c₀.store (entryKey (c₀.os.inodes n) b) ∧
    ∀ j, T.Writes j n b → (t₁.own j).reply = none

/-- What a read returns. -/
theorem read_returned (hst : st.Lasting v) (hfresh : T.Fresh) (haligned : T.Aligned)
    (h₁ : Runs.exec (T.step st) T.begin s₁ = some t₁) (h₂ : Runs.exec (T.step st) t₁ s₂ = some t₂)
    (hstart : ¬(t₁.own i).Begun) (hkind : (T.call i).kind = .read) {r : FileReply}
    (hr : (t₂.own i).reply = some r) :
    ∃ got, (∀ b ∈ (T.call i).blocks, T.Gets t₁ t₂ (T.node i) b (got b)) ∧
      r.ret = some (int32 ((T.call i).blocks.map fun b => countOf (T.call i) b (got b)).sum) ∧
      r.buf.length = (T.call i).buf.length ∧
      ∀ p < (T.call i).buf.length, r.buf[p]? = byteOf (T.call i) got p := by
  obtain ⟨hC, hI⟩ := exec_late hst hfresh haligned h₁
  obtain ⟨⟨hF, -⟩, hI'⟩ := exec_keeps hst hfresh haligned hC hI h₂
  obtain ⟨hpc, -⟩ := hI' i
  rw [hpc.read_pc hkind hr] at hpc
  obtain ⟨-, got, rdcount, hret, hgot⟩ := hpc
  refine ⟨got, fun b hb => ?_, hret.trans (congrArg some hgot.count), hgot.length, fun p hp => ?_⟩
  · rcases hgot.sees b hb with ⟨j, hwrote, hcase⟩ | ⟨hold, hout⟩
    · have hnone : ¬Precedes t₁ i j → (t₁.own j).reply = none := fun hj =>
        Option.not_isSome_iff_eq_none.1 fun hsome => hj ⟨hstart, hsome⟩
      by_cases hbegun : (t₂.own j).Begun
      · exact Or.inl ⟨j, hwrote.1, hbegun,
          hcase.imp_right fun h => ⟨h.1, h.2.1, hnone h.2.2⟩⟩
      · -- the write has not begun, and makes the block as it was
        obtain ⟨hchunk, hsame⟩ := hwrote.unchanged hfresh ((hI' j).1.entry_old hbegun hwrote.1)
        refine Or.inr ⟨?_, fun k hk => ?_⟩
        · rcases hcase with hnew | ⟨-, habsent, -⟩
          · rw [hnew, hsame]
          · rw [habsent] at hchunk
            cases hchunk
        · obtain rfl := T.writes_unique hk hwrote.1
          refine hnone fun hj => hbegun (begun_of_reply ((hI' k).2 i hj))
    · refine Or.inr ⟨hold, fun j hj => ?_⟩
      exact Option.not_isSome_iff_eq_none.1 fun hsome => hout j ⟨hstart, hsome⟩ hj
  · exact hgot.bytes p (by unfold IoCall.stop; omega)

/-! ## Every request returns -/

omit [DecidableEq ι]

theorem length_touched_le {offset x y : ℤ} (h : x ≤ y) :
    (touched offset x).length ≤ (touched offset y).length := by
  unfold touched blocks
  split_ifs <;> simp only [List.length_nil, List.length_range'] <;> omega

/-- The blocks of a request from byte `y` on. -/
def blocksLeft (T : Batch ι doHash v S c₀ bytes) (i : ι) (y : ℤ) : ℕ :=
  (T.call i).blocks.length - (touched (T.call i).offset y).length

/-- The block of byte `y` is the first of them. -/
theorem blocksLeft_next {y : ℤ} (hat : AtBlock (T.call i).offset y) (hlt : y < (T.call i).stop) :
    T.blocksLeft i y = T.blocksLeft i (y + Client.chunkLen (T.call i).stop y) + 1 := by
  have hnext := touched_next (T.nonneg i) hat hlt
  have hle : (touched (T.call i).offset (y + Client.chunkLen (T.call i).stop y)).length ≤
      (touched (T.call i).offset (T.call i).stop).length :=
    length_touched_le (Client.add_chunkLen_le hlt.le)
  rw [hnext, List.length_append, List.length_singleton] at hle
  unfold blocksLeft IoCall.blocks
  rw [hnext, List.length_append, List.length_singleton]
  omega

/-- The steps a request has before it, at most. -/
def stepsLeft (T : Batch ι doHash v S c₀ bytes) (i : ι) : IoPc → ℕ
  | .writing .start => 5 * (T.call i).blocks.length + 2
  | .writing (.entry x) => 5 * T.blocksLeft i x.i + 1
  | .writing (.base x) => 5 * T.blocksLeft i x.i
  | .writing (.clear x _) => 5 * T.blocksLeft i x.i - 1
  | .writing (.publish x _) => 5 * T.blocksLeft i x.i - 2
  | .writing (.put x _) => 5 * T.blocksLeft i x.i - 3
  | .writing (.grow _) => 1
  | .reading .start => 2 * (T.call i).blocks.length + 1
  | .reading (.entry x) => 2 * T.blocksLeft i x.i
  | .reading (.block x) => 2 * T.blocksLeft i x.i - 1
  | .writing (.returned _) | .reading (.returned _ _) => 0

theorem blocksLeft_start : T.blocksLeft i (T.call i).offset = (T.call i).blocks.length := by
  rw [blocksLeft, touched_self, List.length_nil, Nat.sub_zero]

theorem stepsLeft_writeTest (x : WriteVars) :
    T.stepsLeft i (.writing (Client.writeTest (T.call i).buf (T.call i).offset x)) ≤
      5 * T.blocksLeft i x.i + 1 := by
  rw [Client.writeTest]
  split_ifs
  · exact le_rfl
  · exact Nat.le_add_left 1 _

theorem stepsLeft_readTest (x : ReadVars) :
    T.stepsLeft i (.reading (Client.readTest x)) ≤ 2 * T.blocksLeft i x.i := by
  rw [Client.readTest]
  split_ifs
  · exact le_rfl
  · exact Nat.zero_le _

/-- A step of a write. -/
theorem writeAct_decreases {pc pc' : WritePc} (h : T.WriteInv st i c pc)
    (hact : Client.writeAct doHash st {} (T.call i).fh (T.call i).buf (T.call i).offset
      (T.call i).junk c pc = some (c', pc')) :
    T.stepsLeft i (.writing pc') < T.stepsLeft i (.writing pc) := by
  cases pc with
  | start =>
    obtain ⟨ctx, -, heq⟩ := Option.map_eq_some_iff.1 hact
    obtain ⟨-, rfl⟩ := Prod.mk.inj heq
    have htest := T.stepsLeft_writeTest (i := i) ⟨ctx.fd, ctx.stSize, (T.call i).junk,
      (T.call i).offset⟩
    simp only [blocksLeft_start] at htest
    exact Nat.lt_succ_of_le htest
  | entry x =>
    have hnext := blocksLeft_next h.1.atBlock h.1.lt
    obtain ⟨-, rfl⟩ := Prod.mk.inj (Option.some.inj hact)
    split_ifs <;> simp only [stepsLeft] <;> omega
  | base x =>
    have hnext := blocksLeft_next h.1.atBlock h.1.lt
    obtain ⟨-, rfl⟩ := Prod.mk.inj (Option.some.inj hact)
    simp only [stepsLeft]
    omega
  | clear x data =>
    have hnext := blocksLeft_next h.1.atBlock h.1.lt
    obtain ⟨r, -, heq⟩ := Option.map_eq_some_iff.1 hact
    obtain ⟨-, rfl⟩ := Prod.mk.inj heq
    simp only [stepsLeft]
    omega
  | publish x data =>
    have hnext := blocksLeft_next h.1.atBlock h.1.lt
    obtain ⟨-, rfl⟩ := Prod.mk.inj (Option.some.inj hact)
    split_ifs <;> simp only [stepsLeft] <;> omega
  | put x data =>
    have hnext := blocksLeft_next h.1.atBlock h.1.lt
    obtain ⟨r, -, heq⟩ := Option.map_eq_some_iff.1 hact
    obtain ⟨-, rfl⟩ := Prod.mk.inj heq
    rw [sizeToWrite_eq h.1]
    split_ifs
    · simp only [stepsLeft]
      omega
    · have htest := T.stepsLeft_writeTest (i := i)
        { x with i := x.i + Client.chunkLen (T.call i).stop x.i }
      simp only at htest
      have hput : T.stepsLeft i (.writing (.put x data)) = 5 * T.blocksLeft i x.i - 3 := rfl
      omega
  | grow x =>
    obtain ⟨r, -, heq⟩ := Option.map_eq_some_iff.1 hact
    obtain ⟨-, rfl⟩ := Prod.mk.inj heq
    exact Nat.zero_lt_one
  | returned ret => cases hact

/-- A step of a read. -/
theorem readAct_decreases {D : ι → Prop} {pc pc' : ReadPc} (h : T.ReadInv D i c pc)
    (hact : Client.readAct st {} (T.call i).fh (T.call i).buf (T.call i).offset
      (T.call i).junk c pc = some (c', pc')) :
    T.stepsLeft i (.reading pc') < T.stepsLeft i (.reading pc) := by
  cases pc with
  | start =>
    obtain ⟨ctx, -, heq⟩ := Option.map_eq_some_iff.1 hact
    obtain ⟨-, rfl⟩ := Prod.mk.inj heq
    refine (T.stepsLeft_readTest _).trans_lt ?_
    simp only [blocksLeft_start, stepsLeft]
    omega
  | entry x =>
    have hnext := blocksLeft_next h.1.atBlock h.1.lt
    obtain ⟨-, rfl⟩ := Prod.mk.inj (Option.some.inj hact)
    split <;> simp only [stepsLeft] <;> omega
  | block x =>
    have hnext := blocksLeft_next h.1.atBlock h.1.lt
    obtain ⟨-, rfl⟩ := Prod.mk.inj (Option.some.inj hact)
    refine (T.stepsLeft_readTest _).trans_lt ?_
    simp only [h.1.advance, stepsLeft]
    omega
  | returned buf ret => cases hact

/-- A step of a request. -/
theorem act_decreases {pc pc' : IoPc} (h : T.ThreadInv st D i c pc)
    (hact : Client.act doHash st {} (T.call i) c pc = some (c', pc')) :
    T.stepsLeft i pc' < T.stepsLeft i pc := by
  cases pc with
  | writing pc =>
    obtain ⟨⟨c₁, pc₁⟩, hwrite, heq⟩ := Option.map_eq_some_iff.1 hact
    obtain ⟨rfl, rfl⟩ := Prod.mk.inj heq
    exact writeAct_decreases h.1.2 hwrite
  | reading pc =>
    obtain ⟨⟨c₁, pc₁⟩, hread, heq⟩ := Option.map_eq_some_iff.1 hact
    obtain ⟨rfl, rfl⟩ := Prod.mk.inj heq
    exact readAct_decreases h.1.2 hread

/-- Over a lasting store, a request that cannot take a step has returned. -/
theorem returned_of_stuck (hst : st.Lasting v) (hF : T.Frame c) {pc : IoPc}
    (h : Client.act doHash st {} (T.call i) c pc = none) : pc.reply.isSome := by
  have hctx := hF.context i
  cases pc with
  | writing pc =>
    have hnone := Option.map_eq_none_iff.1 h
    cases pc with
    | returned ret => rfl
    | start | grow x => simp [Client.writeAct, hctx] at hnone
    | entry x | base x | publish x data => cases hnone
    | clear x data =>
      have hsome := hst.del_isSome c.store x.hashKey
      rw [Option.map_eq_none_iff.1 hnone] at hsome
      cases hsome
    | put x data =>
      have hsome := hst.put_isSome c.store x.hashKey data
      rw [Option.map_eq_none_iff.1 hnone] at hsome
      cases hsome
  | reading pc =>
    have hnone := Option.map_eq_none_iff.1 h
    cases pc with
    | returned buf ret => rfl
    | start => simp [Client.readAct, hctx] at hnone
    | entry x | block x => cases hnone

/-- No schedule is longer than what the requests have before them, and from where it comes to they
can all go on until they have returned. -/
theorem requests_return [DecidableEq ι] [Fintype ι] (hst : st.Lasting v) (hfresh : T.Fresh)
    (haligned : T.Aligned) {sched : List ι} {t : Threads ι (Client B P) IoPc}
    (h : Runs.exec (T.step st) T.begin sched = some t) :
    sched.length ≤ ∑ i, T.stepsLeft i (T.call i).kind.start ∧
      ∃ sched' t', Runs.exec (T.step st) t sched' = some t' ∧
        ∀ i, (t'.own i).reply.isSome := by
  have hact : ∀ t i t', T.Holds st t → T.step st t i = some t' →
      T.Holds st t' ∧ T.stepsLeft i (t'.own i) < T.stepsLeft i (t.own i) := by
    intro t i t' hI hstep
    refine ⟨hI.step hst hfresh haligned hstep, ?_⟩
    obtain ⟨c, pc, hact, rfl⟩ := Threads.step_eq_some.1 hstep
    simp only [update_self]
    exact act_decreases (hI.2 i) hact
  have hbegin := T.holds_begin st
  refine ⟨(Nat.le_add_right _ _).trans (Threads.exec_length_le hact hbegin h), ?_⟩
  obtain ⟨sched', t', h', ⟨⟨hF, -⟩, -⟩, hstuck⟩ :=
    Threads.exists_stuck hact (hbegin.exec hst hfresh haligned h)
  exact ⟨sched', t', h', fun i => returned_of_stuck hst hF (Threads.step_eq_none.1 (hstuck i))⟩

end Batch

end Agilefs
