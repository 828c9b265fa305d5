import Agilefs.SharedFiles

/-!
# Requests at the same time over the chunk files

`Backed.serves_writes` : a client over chunk files serves a batch of requests in any order of their
steps. When the writes have returned, the client stands for the file system in which they are done
one after another, in whatever order. `Backed.serves_reads` : what the reads return in the meantime.

The calls to the chunk store are steps of their own, and each is taken as a whole.
-/

namespace Agilefs

open CInt Posix Function ByteFile

variable {B B' P Q ι : Type*}

/-- Five steps for each block written, and two for each block read. -/
def IoCall.maxSteps (q : IoCall) : ℕ :=
  match q.kind with
  | .write => 5 * q.blocks.length + 2
  | .read => 2 * q.blocks.length + 1

namespace Client

/-! ## A step over two stores -/

section Act

variable {st : BlockStore B} {st' : BlockStore B'} {R : B → B' → Prop}
  {doHash : List UInt8 → Key} {io : Io} {fh : ℕ} {buf : List UInt8} {offset : ℤ} {junk : Key}
  {c c' : Client B P} {t : B'}

/-- A step of a write over a store that does the same. -/
theorem writeAct_simulates (hsim : st.Simulates st' R) {pc pc' : WritePc} (hR : R c.store t)
    (h : writeAct doHash st io fh buf offset junk c pc = some (c', pc')) :
    ∃ t', writeAct doHash st' io fh buf offset junk (c.withStore t) pc =
      some (c'.withStore t', pc') ∧ R c'.store t' := by
  cases pc with
  | start =>
    obtain ⟨ctx, hctx, heq⟩ := Option.map_eq_some_iff.1 h
    obtain ⟨rfl, rfl⟩ := Prod.mk.inj heq
    exact ⟨t, by simp only [writeAct, withStore, hctx, Option.map_some], hR⟩
  | entry x =>
    obtain ⟨rfl, rfl⟩ := Prod.mk.inj (Option.some.inj h)
    exact ⟨t, rfl, hR⟩
  | base x =>
    obtain ⟨rfl, rfl⟩ := Prod.mk.inj (Option.some.inj h)
    have hbase := hsim.read _ t x.hashKey 4096 0 hR (by decide)
    rw [Nat.cast_zero] at hbase
    exact ⟨t, by simp only [writeAct, withStore, hbase], hR⟩
  | clear x data =>
    obtain ⟨⟨store, ret⟩, hdel, heq⟩ := Option.map_eq_some_iff.1 h
    obtain ⟨rfl, rfl⟩ := Prod.mk.inj heq
    obtain ⟨t', hdel', hR'⟩ := hsim.del _ t _ _ _ hR hdel
    exact ⟨t', by simp only [writeAct, withStore, hdel', Option.map_some], hR'⟩
  | publish x data =>
    obtain ⟨rfl, rfl⟩ := Prod.mk.inj (Option.some.inj h)
    exact ⟨t, rfl, hR⟩
  | put x data =>
    obtain ⟨⟨store, ret⟩, hput, heq⟩ := Option.map_eq_some_iff.1 h
    obtain ⟨rfl, rfl⟩ := Prod.mk.inj heq
    obtain ⟨t', hput', hR'⟩ := hsim.put _ t _ _ _ _ hR hput
    exact ⟨t', by simp only [writeAct, withStore, hput', Option.map_some], hR'⟩
  | grow x =>
    obtain ⟨ctx, hctx, heq⟩ := Option.map_eq_some_iff.1 h
    obtain ⟨rfl, rfl⟩ := Prod.mk.inj heq
    exact ⟨t, by simp only [writeAct, withStore, hctx, Option.map_some], hR⟩
  | returned ret => cases h

/-- A step of a read, where what it reads is the same. -/
theorem readAct_simulates {pc pc' : ReadPc} (hR : R c.store t)
    (hread : ∀ x, pc = .block x →
      st'.blockRead t x.hashKey (min 4096 (int64 (buf.length - x.i + offset))).toNat
          (x.i % 4096) =
        st.blockRead c.store x.hashKey (min 4096 (int64 (buf.length - x.i + offset))).toNat
          (x.i % 4096))
    (h : readAct st io fh buf offset junk c pc = some (c', pc')) :
    ∃ t', readAct st' io fh buf offset junk (c.withStore t) pc =
      some (c'.withStore t', pc') ∧ R c'.store t' := by
  cases pc with
  | start =>
    obtain ⟨ctx, hctx, heq⟩ := Option.map_eq_some_iff.1 h
    obtain ⟨rfl, rfl⟩ := Prod.mk.inj heq
    exact ⟨t, by simp only [readAct, withStore, hctx, Option.map_some], hR⟩
  | entry x =>
    obtain ⟨rfl, rfl⟩ := Prod.mk.inj (Option.some.inj h)
    exact ⟨t, rfl, hR⟩
  | block x =>
    obtain ⟨rfl, rfl⟩ := Prod.mk.inj (Option.some.inj h)
    exact ⟨t, by simp only [readAct, withStore, hread x rfl], hR⟩
  | returned buf ret => cases h

/-- A step of a request. -/
theorem act_simulates (hsim : st.Simulates st' R) {q : IoCall} {pc pc' : IoPc}
    (hR : R c.store t)
    (hread : ∀ x, pc = .reading (.block x) →
      st'.blockRead t x.hashKey (min 4096 (int64 (q.buf.length - x.i + q.offset))).toNat
          (x.i % 4096) =
        st.blockRead c.store x.hashKey (min 4096 (int64 (q.buf.length - x.i + q.offset))).toNat
          (x.i % 4096))
    (h : act doHash st io q c pc = some (c', pc')) :
    ∃ t', act doHash st' io q (c.withStore t) pc = some (c'.withStore t', pc') ∧ R c'.store t' := by
  cases pc with
  | writing pc =>
    obtain ⟨⟨c₁, pc₁⟩, hwrite, heq⟩ := Option.map_eq_some_iff.1 h
    obtain ⟨rfl, rfl⟩ := Prod.mk.inj heq
    obtain ⟨t', hact, hR'⟩ := writeAct_simulates hsim hR hwrite
    exact ⟨t', by simp only [act, hact, Option.map_some], hR'⟩
  | reading pc =>
    obtain ⟨⟨c₁, pc₁⟩, hact, heq⟩ := Option.map_eq_some_iff.1 h
    obtain ⟨rfl, rfl⟩ := Prod.mk.inj heq
    obtain ⟨t', hact', hR'⟩ := readAct_simulates hR (fun x hx => hread x (hx ▸ rfl)) hact
    exact ⟨t', by simp only [act, hact', Option.map_some], hR'⟩

end Act

/-! ## A run over two stores -/

section Runs

variable [DecidableEq ι] {st : BlockStore B} {st' : BlockStore B'} {R : B → B' → Prop}
  {doHash : List UInt8 → Key} {q : ι → IoCall} {sched : List ι}
  {t t' : Threads ι (Client B P) IoPc}

/-- The requests with another store. -/
def withStores (t : Threads ι (Client B P) IoPc) (u : B') : Threads ι (Client B' P) IoPc :=
  ⟨t.shared.withStore u, t.own⟩

/-- Clients that differ in their stores, which are related. -/
def OverStores (R : B → B' → Prop) (c : Client B P) (x : Client B' P) : Prop :=
  ∃ u, x = c.withStore u ∧ R c.store u

/-- A run over a store that does the same, and also reads the same past the end of a block. -/
theorem together_simulates (hsim : st.Simulates st' R)
    (hread : ∀ s u k n off, R s u → st'.blockRead u k n off = st.blockRead s k n off) {u : B'}
    (hR : R t.shared.store u)
    (h : Runs.exec (together doHash st q) t sched = some t') :
    ∃ u', Runs.exec (together doHash st' q) (withStores t u) sched = some (withStores t' u') ∧
      R t'.shared.store u' := by
  obtain ⟨x, hexec, ⟨u', rfl, hR'⟩, -⟩ := Threads.exec_simulates (OverStores R) (fun _ => True)
    (fun _ _ _ _ _ => trivial) (fun i c x c' pc' own hR _ hact => by
      obtain ⟨u, rfl, hR⟩ := hR
      obtain ⟨u', hact', hR'⟩ := act_simulates hsim hR
        (fun x _ => hread _ _ _ _ _ hR) hact
      exact ⟨_, hact', u', rfl, hR'⟩)
    (u := t.shared.withStore u) ⟨u, rfl, hR⟩ trivial h
  exact ⟨u', hexec, hR'⟩

/-- A run of a batch over a store that does the same inside a block. -/
theorem batch_simulates {v : StoreView B'} {S : Set (List UInt8)} {c₀ : Client B' P}
    {bytes : ℕ → ByteFile} (T : Batch ι doHash v S c₀ bytes) (hsim : st.Simulates st' R)
    (hst : st'.Lasting v) (hfresh : T.Fresh) (haligned : T.Aligned) {u : B'}
    (hR : R t.shared.store u) (hI : T.Holds st' (withStores t u))
    (h : Runs.exec (together doHash st T.call) t sched = some t') :
    ∃ u', Runs.exec (together doHash st' T.call) (withStores t u) sched = some (withStores t' u') ∧
      R t'.shared.store u' ∧ T.Holds st' (withStores t' u') := by
  have hact : ∀ i (c : Client B P) x c' pc' own, OverStores R c x → T.Holds st' ⟨x, own⟩ →
      act doHash st {} (T.call i) c (own i) = some (c', pc') →
      ∃ x', act doHash st' {} (T.call i) x (own i) = some (x', pc') ∧ OverStores R c' x' := by
    rintro i c _ c' pc' own ⟨u, rfl, hR⟩ hI hact
    obtain ⟨u', hact', hR'⟩ := act_simulates hsim hR (fun x hpc => by
      have hpc' := (hI.2 i).1
      simp only [hpc] at hpc'
      obtain ⟨hx, -⟩ := hpc'.2
      have hoff : x.i % 4096 = ((x.i % 4096).toNat : ℤ) := by omega
      rw [hx.length_eq, hoff]
      exact hsim.read _ _ _ _ _ hR (hx.inside (haligned i hpc'.1))) hact
    exact ⟨_, hact', u', rfl, hR'⟩
  obtain ⟨x, hexec, ⟨u', rfl, hR'⟩, hI'⟩ := Threads.exec_simulates (OverStores R) (T.Holds st')
    (fun _ _ _ hI hstep => hI.step hst hfresh haligned hstep) hact
    (u := t.shared.withStore u) ⟨u, rfl, hR⟩ hI h
  exact ⟨u', hexec, hR', hI'⟩

end Runs

/-! ## Over the chunk files -/

section Backed

variable [DecidableEq ι] [DecidableEq P] [DecidableEq Q] {whd : WriteHashDb Key}
  {doHash : List UInt8 → Key} {content : Key → Block} {doc : List (XmlEvent Q)}
  {c : Client (Store Key Q) P} {s : FileSys P} {q : ι → IoCall} {sched s₁ s₂ : List ι}
  {t t₁ t₂ : Threads ι (Client (Store Key Q) P) IoPc}

/-- What the chunk store has under a key. -/
def stored (whd : WriteHashDb Key) (c : Client (Store Key Q) P) (k : Key) : Option (List UInt8) :=
  (Store.blocks whd {}).blockRead c.store k 4096 0

omit [DecidableEq ι] [DecidableEq P] in
/-- It is what is on the shelf. -/
theorem stored_eq {u : Shelf × List StoreCall} (h : c.store.Shelved doHash content doc u) :
    c.stored whd = Shelf.view.chunk u.1 := by
  funext k
  have hsim : (Store.checked whd doHash content).Simulates shelf.recorded
    (Store.Shelved doHash content doc) := Store.checked_shelf
  have hread := hsim.read _ _ k 4096 0 h (by decide)
  rw [Nat.cast_zero] at hread
  exact hread.symm.trans (shelf_lasting.read u.1 k)

/-- The client over a shelf with the blocks of its chunk store. -/
def onShelf (content : Key → Block) (c : Client (Store Key Q) P) :
    Client (Shelf × List StoreCall) P :=
  c.withStore (fun k => (c.store.counts k).map fun _ => content k, [])

omit [DecidableEq P] [DecidableEq Q] in
theorem Backed.shelved (h : c.Backed doHash content doc s) :
    c.store.Shelved doHash content doc (c.onShelf content).store := by
  obtain ⟨t, hshelved, -⟩ := h
  exact ⟨hshelved.durable, fun _ => rfl, hshelved.named, nofun⟩

omit [DecidableEq P] [DecidableEq Q] in
theorem Backed.onShelf (h : c.Backed doHash content doc s) :
    (c.onShelf content).Mirrors doHash Shelf.view {d | Names doHash content d} s := by
  obtain ⟨⟨u, calls⟩, hshelved, hmirrors⟩ := h
  obtain rfl : u = fun k => (c.store.counts k).map fun _ => content k :=
    funext hshelved.shelf
  exact ⟨hmirrors.names, hmirrors.named, hmirrors.inj, hmirrors.handles, hmirrors.alone,
    hmirrors.describes, hmirrors.saved, hmirrors.nextFile, hmirrors.nextFh, hmirrors.addressed⟩

omit [DecidableEq ι] [DecidableEq P] in
theorem Backed.fresh_onShelf (h : c.Backed doHash content doc s) {S : Set (List UInt8)}
    (hfresh : c.Fresh doHash (c.stored whd) S s q) :
    (c.onShelf content).Fresh doHash (Shelf.view.chunk (c.onShelf content).store.1) S s q := by
  rw [stored_eq h.shelved] at hfresh
  exact hfresh

omit [DecidableEq P] in
/-- A run over the chunk files with checks is one without, and one over the shelf. -/
theorem checked_runs {u : Shelf × List StoreCall}
    (hshelved : t.shared.store.Shelved doHash content doc u)
    {S : Set (List UInt8)} {c₀ : Client (Shelf × List StoreCall) P} {bytes : ℕ → ByteFile}
    (T : Batch ι doHash Shelf.view.recorded S c₀ bytes) (hfresh : T.Fresh) (haligned : T.Aligned)
    (hI : T.Holds shelf.recorded (withStores t u))
    (h : Runs.exec (together doHash (Store.checked whd doHash content) T.call) t sched = some t₁) :
    Runs.exec (together doHash (Store.blocks whd {}) T.call) t sched = some t₁ ∧
      ∃ u', Runs.exec (together doHash shelf.recorded T.call) (withStores t u) sched =
          some (withStores t₁ u') ∧
        t₁.shared.store.Shelved doHash content doc u' ∧
        T.Holds shelf.recorded (withStores t₁ u') := by
  obtain ⟨_, hblocks, rfl⟩ := together_simulates Store.checked_blocks
    (by rintro s _ k n off rfl; rfl) (u := t.shared.store) rfl h
  exact ⟨hblocks, batch_simulates T Store.checked_shelf shelf_lasting.recorded hfresh haligned
    hshelved hI h⟩

omit [DecidableEq P] in
/-- A run over the chunk files with checks is one over the shelf with the same blocks. -/
theorem Backed.runs_onShelf (h : c.Backed doHash content doc s) (hq : s.Together q)
    (hfresh : c.Fresh doHash (c.stored whd) {d | Names doHash content d} s q)
    (hexec : Runs.exec (together doHash (Store.checked whd doHash content) q) (c.begin q) sched =
      some t) :
    ∃ t', Runs.exec (together doHash shelf.recorded q) ((c.onShelf content).begin q) sched =
      some t' := by
  have hmirrors := h.onShelf
  have hinj := names_injOn doHash content
  have hfresh' := hmirrors.batch_fresh hq hinj (h.fresh_onShelf hfresh)
  obtain ⟨-, u', hshelf, -⟩ := checked_runs (T := hmirrors.batch hq hinj) h.shelved hfresh'
    hq.aligned (Batch.holds_begin _ _) hexec
  exact ⟨_, hshelf⟩

/-- After the writes have returned, the client stands for the file system where they are done one
after another, in any order. -/
theorem Backed.serves_writes (h : c.Backed doHash content doc s) (hq : s.Together q)
    (hfresh : c.Fresh doHash (c.stored whd) {d | Names doHash content d} s q)
    (hexec : Runs.exec (together doHash (Store.checked whd doHash content) q) (c.begin q) sched =
      some t)
    (hret : ∀ i, (q i).kind = .write → (t.own i).reply.isSome) {order : List ι}
    (horder : ∀ i, (q i).kind = .write → i ∈ order) :
    Runs.exec (together doHash (Store.blocks whd {}) q) (c.begin q) sched = some t ∧
      (∀ i, (q i).kind = .write →
        (t.own i).reply = some { ret := some ((q i).buf.length : ℤ) }) ∧
      ∃ s', Runs.exec (fun s i => (s.step (q i).fileCall).map Prod.fst) s order = some s' ∧
        t.shared.Backed doHash content doc s' := by
  obtain ⟨u, hshelved, hmirrors⟩ := h
  have hinj := names_injOn doHash content
  rw [stored_eq hshelved] at hfresh
  have hfresh' := hmirrors.batch_fresh hq hinj hfresh
  obtain ⟨hblocks, u', hshelf, hshelved', -⟩ := checked_runs (T := hmirrors.batch hq hinj) hshelved
    hfresh' hq.aligned (Batch.holds_begin _ _) hexec
  obtain ⟨hreply, hmirrors'⟩ :=
    hmirrors.written shelf_lasting hinj hq hfresh hshelf hret horder
  refine ⟨hblocks, hreply, s.written q order, FileSys.exec_fileCall fun i _ => ?_, u', hshelved',
    hmirrors'⟩
  obtain ⟨n, -, hn, -⟩ := hmirrors.opened hq i
  rw [hn]
  rfl

omit [DecidableEq P] in
/-- What a read returns, while the other requests are served. -/
theorem Backed.serves_reads (h : c.Backed doHash content doc s) (hq : s.Together q)
    (hfresh : c.Fresh doHash (c.stored whd) {d | Names doHash content d} s q)
    (h₁ : Runs.exec (together doHash (Store.checked whd doHash content) q) (c.begin q) s₁ =
      some t₁)
    (h₂ : Runs.exec (together doHash (Store.checked whd doHash content) q) t₁ s₂ = some t₂)
    {i : ι} (hstart : ¬(t₁.own i).Begun) (hkind : (q i).kind = .read) {r : FileReply}
    (hr : (t₂.own i).reply = some r) :
    Runs.exec (together doHash (Store.blocks whd {}) q) (c.begin q) s₁ = some t₁ ∧
      Runs.exec (together doHash (Store.blocks whd {}) q) t₁ s₂ = some t₂ ∧
      ∃ version, (∀ b ∈ (q i).blocks, s.Gets q (c.Absent doHash (c.stored whd) s q) t₁ t₂
        (s.node q i) b (version b)) ∧ FileSys.Returns (q i) version r := by
  obtain ⟨u, hshelved, hmirrors⟩ := h
  have hinj := names_injOn doHash content
  rw [stored_eq hshelved] at hfresh ⊢
  have hfresh' := hmirrors.batch_fresh hq hinj hfresh
  obtain ⟨hblocks₁, u₁, hshelf₁, hshelved₁, hI₁⟩ := checked_runs (T := hmirrors.batch hq hinj)
    hshelved hfresh' hq.aligned (Batch.holds_begin _ _) h₁
  obtain ⟨hblocks₂, u₂, hshelf₂, -, -⟩ := checked_runs (T := hmirrors.batch hq hinj)
    hshelved₁ hfresh' hq.aligned hI₁ h₂
  exact ⟨hblocks₁, hblocks₂,
    hmirrors.reads shelf_lasting hinj hq hfresh hshelf₁ hshelf₂ hstart hkind hr⟩

end Backed

/-! ## Every request returns -/

section Ends

variable [DecidableEq ι] [Fintype ι] {st : BlockStore B} {doHash : List UInt8 → Key}
  {v : StoreView B} {S : Set (List UInt8)} {c : Client (B × List StoreCall) P} {s : FileSys P}
  {q : ι → IoCall} {sched : List ι} {t : Threads ι (Client (B × List StoreCall) P) IoPc}

/-- No schedule is longer than five steps for each block written and two for each block read, and
the requests can always go on until all have returned. -/
theorem Mirrors.schedules_end (hst : st.Lasting v) (hinj : S.InjOn doHash)
    (h : c.Mirrors doHash v S s) (hq : s.Together q)
    (hfresh : c.Fresh doHash (v.chunk c.store.1) S s q)
    (hexec : Runs.exec (together doHash st.recorded q) (c.begin q) sched = some t) :
    sched.length ≤ ∑ i, (q i).maxSteps ∧
      ∃ sched' t', Runs.exec (together doHash st.recorded q) t sched' = some t' ∧
        ∀ i, (t'.own i).reply.isSome := by
  obtain ⟨hle, hrest⟩ := Batch.requests_return (T := h.batch hq hinj) hst.recorded
    (h.batch_fresh hq hinj hfresh) hq.aligned hexec
  refine ⟨hle.trans (Finset.sum_le_sum fun i _ => ?_), hrest⟩
  rw [IoCall.maxSteps]
  show (h.batch hq hinj).stepsLeft i (q i).kind.start ≤ _
  cases (q i).kind <;> exact le_rfl

end Ends

/-! ## Small files, written and read at the same time -/

/-- The requests that make a file with the bytes `buf`. -/
def fileOps (buf : List UInt8) : List (FuseOp ℕ) := [.create 0, .write 0 buf 0 sevens]

/-- The requests are served over the chunk files with checks. -/
def servesOps (c : Client (Store Key ℕ) ℕ) (ops : List (FuseOp ℕ)) :
    Option (Client (Store Key ℕ) ℕ) :=
  Runs.exec (fun c op =>
    (c.step firstByte (Store.checked (.insert Key) firstByte headBlock) op).map Prod.fst) c ops

/-- A client with the file, which is open. -/
def fileClient (buf : List UInt8) : Client (Store Key ℕ) ℕ :=
  (sevensClient.servesOps (fileOps buf)).getD sevensClient

theorem fileClient_eq {buf : List UInt8} {c : Client (Store Key ℕ) ℕ}
    (h : sevensClient.servesOps (fileOps buf) = some c) : fileClient buf = c := by
  rw [fileClient, h, Option.getD_some]

/-- Its file system. -/
def fileSystem (buf : List UInt8) : FileSys ℕ :=
  (((FileSys.empty 0 0).create 0).attach 0).setBytes 0 (pwrite [] buf 0)

theorem length_fileSystem {buf : List UInt8} (h : buf ≠ []) :
    ((fileSystem buf).bytes 0).length = buf.length := by
  have hbytes : (fileSystem buf).bytes 0 = pwrite [] buf 0 := by
    simp only [fileSystem, FileSys.setBytes, update_self]
  rw [hbytes, length_pwrite [] h, List.length_nil, Nat.zero_add, Nat.max_eq_right (Nat.zero_le _)]

theorem backed_fileClient {buf : List UInt8} (hlen : buf.length < 2 ^ 31)
    (hserved : (sevensClient.servesOps (fileOps buf)).isSome) :
    (fileClient buf).Backed firstByte headBlock Store.oneFileDoc (fileSystem buf) := by
  have hstart : sevensClient.Backed firstByte headBlock Store.oneFileDoc (.empty 0 0) :=
    backed_empty (fun _ => rfl) durable_sevensClient named_sevensClient
  obtain ⟨c', hc'⟩ := Option.isSome_iff_exists.1 hserved
  have hc : fileClient buf = c' := fileClient_eq hc'
  rw [servesOps] at hc'
  obtain ⟨c₁, h₁, hrest⟩ := Option.bind_eq_some_iff.1 hc'
  obtain ⟨c₂, h₂, hnil⟩ := Option.bind_eq_some_iff.1 hrest
  obtain rfl := Option.some.inj hnil
  obtain ⟨⟨c₁, ret₁⟩, hcreate, rfl⟩ := Option.map_eq_some_iff.1 h₁
  obtain ⟨⟨c₂, ret₂⟩, hwrite, rfl⟩ := Option.map_eq_some_iff.1 h₂
  have hfit : (FileSys.empty 0 0).Fits (.change (.create 0)) := trivial
  obtain ⟨s₁, -, hs₁, hbacked₁⟩ := hstart.change hfit trivial hcreate
  obtain ⟨rfl, -⟩ := Prod.mk.inj (Option.some.inj hs₁)
  have hfit' : (((FileSys.empty 0 0).create 0).attach 0).Fits
      (.change (.write 0 buf 0 sevens)) := ⟨0, rfl, le_rfl, le_rfl, by omega, hlen⟩
  obtain ⟨s₂, -, hs₂, hbacked₂⟩ := hbacked₁.change hfit' trivial hwrite
  obtain ⟨rfl, -⟩ := Prod.mk.inj (Option.some.inj hs₂)
  rw [hc]
  exact hbacked₂

/-- The block `b` of a file has the byte `y` and zeros. -/
structure HasBlock (c : Client (Store Key ℕ) ℕ) (b : ℕ) (y : UInt8) : Prop where
  entry : HasEntry (c.os.inodes 0) b
  stored : c.stored (.insert Key) (entryKey (c.os.inodes 0) b) =
    some (y :: List.replicate 4095 0)

/-- So have all blocks of a file that starts them with such a byte. -/
theorem Backed.hasBlock {c : Client (Store Key ℕ) ℕ} {s : FileSys ℕ} {doc : List (XmlEvent ℕ)}
    (h : c.Backed firstByte headBlock doc s) (hlive : s.Live 0) {b : ℕ} {y : UInt8}
    (hbyte : (s.bytes 0)[b * 4096]? = some y) : c.HasBlock b y := by
  have hmirrors := h.onShelf
  have hdescribes := hmirrors.describes 0 hlive
  have hlt : b * 4096 < (s.bytes 0).length := (List.getElem?_eq_some_iff.1 hbyte).1
  obtain ⟨hentry, hchunk⟩ := hdescribes.covered b (lt_blocks_iff.2 (by omega))
  obtain ⟨d, hd⟩ := Option.isSome_iff_exists.1 hchunk
  obtain ⟨⟨-, hname⟩, -⟩ := hmirrors.addressed _ d hd
  -- the chunk is the block of its first byte
  have hhead : d.headD 0 = y := by
    have hat := hdescribes.bytes _ hlt
    rw [hbyte, byteAt, Nat.mul_div_cancel b (by decide), Nat.mul_mod_left, if_pos hentry, hd,
      Option.getD_some, Option.some_inj] at hat
    rw [hat]
    cases d <;> rfl
  refine ⟨hentry, ?_⟩
  rw [stored_eq h.shelved]
  refine hd.trans ?_
  rw [← hname, ← hhead]
  rfl

/-- The block of `b` as a write of its first byte makes it. -/
theorem HasBlock.newBlock {c : Client (Store Key ℕ) ℕ} {b : ℕ} {y : UInt8} (h : c.HasBlock b y)
    (x : UInt8) : c.newBlock firstByte (c.stored (.insert Key)) 0
      ⟨.write, 0, [x], (b : ℤ) * 4096, sevens⟩ b = x :: List.replicate 4095 0 := by
  set J : WriteJob := ⟨firstByte, c.os.inodes 0, c.stored (.insert Key), fun _ => 0, [x],
    (b : ℤ) * 4096, sevens⟩ with hJ
  have hlive : b < J.live := J.hasEntry_iff_live.1 h.entry
  have hkey : J.chunk (J.oldKey b) = some (y :: List.replicate 4095 0) := h.stored
  have hold : J.oldBlock b = y :: List.replicate 4095 0 := by
    rw [WriteJob.oldBlock, if_pos hlive, hkey, Option.getD_some]
  show J.newBlock b = _
  rw [WriteJob.newBlock, hold]
  refine List.ext_getElem? fun j => ?_
  have hlen : (J.overwritten (y :: List.replicate 4095 0) b).length = 4096 :=
    J.length_overwritten _ _
  have hoff : J.offset = (b : ℤ) * 4096 := rfl
  by_cases hj : j < 4096
  · have hinside : J.Inside b j ↔ j = 0 := by
      have hbuf : J.buf.length = 1 := rfl
      rw [WriteJob.Inside, WriteJob.stop, hoff, hbuf]
      omega
    rw [J.getElem?_overwritten _ _ hj]
    cases j with
    | zero =>
      have hzero : ((b : ℤ) * 4096 + (0 : ℕ) - J.offset).toNat = 0 := by
        rw [hoff]
        omega
      rw [if_pos (hinside.2 rfl), hzero]
      rfl
    | succ j =>
      rw [if_neg fun h => absurd (hinside.1 h) (Nat.succ_ne_zero j), List.getD_eq_getElem?_getD,
        List.getElem?_cons_succ, List.getElem?_cons_succ, List.getElem?_replicate,
        if_pos (by omega), Option.getD_some]
  · rw [List.getElem?_eq_none (by omega), List.getElem?_eq_none]
    rw [List.length_cons, List.length_replicate]
    omega

/-- Such a block is the one of its hash. -/
theorem names_byte {x : UInt8} (hx : x ≠ 0) :
    Names firstByte headBlock (x :: List.replicate 4095 0) :=
  ⟨fun h => hx (List.cons.inj (Subtype.ext_iff.1 h)).1, rfl⟩

theorem HasBlock.names_newBlock {c : Client (Store Key ℕ) ℕ} {b : ℕ} {y : UInt8}
    (h : c.HasBlock b y) {x : UInt8} (hx : x ≠ 0) : Names firstByte headBlock
      (c.newBlock firstByte (c.stored (.insert Key)) 0
        ⟨.write, 0, [x], (b : ℤ) * 4096, sevens⟩ b) := by
  rw [h.newBlock]
  exact names_byte hx

/-- A client with a file of one byte. -/
def oneByteClient : Client (Store Key ℕ) ℕ := fileClient [1]

/-- Its file system. -/
def oneByteFile : FileSys ℕ := fileSystem [1]

/-- A write of the byte, and a read. -/
def oneByteCalls : Bool → IoCall
  | true => ⟨.write, 0, [2], 0, sevens⟩
  | false => ⟨.read, 0, [9], 0, sevens⟩

/-- The write has come to the put of its block. -/
def beforePut : List Bool := [true, true, true, true, true]

/-- The read, of one block. -/
def oneRead : List Bool := [false, false, false]

/-- The file is made, and the read runs before the put. -/
theorem runs_oneByteCalls : (sevensClient.servesOps (fileOps [1])).isSome ∧ ∃ t₁ t₂,
    Runs.exec (together firstByte (Store.checked (.insert Key) firstByte headBlock) oneByteCalls)
      (oneByteClient.begin oneByteCalls) beforePut = some t₁ ∧ ¬(t₁.own false).Begun ∧
    Runs.exec (together firstByte (Store.checked (.insert Key) firstByte headBlock) oneByteCalls)
      t₁ oneRead = some t₂ ∧ (t₂.own false).reply.isSome := by
  have hall : (sevensClient.servesOps (fileOps [1])).any (fun c =>
      (Runs.exec (together firstByte (Store.checked (.insert Key) firstByte headBlock)
        oneByteCalls) (c.begin oneByteCalls) beforePut).any fun t =>
          decide (t.own false).Begun == false &&
          (Runs.exec (together firstByte (Store.checked (.insert Key) firstByte headBlock)
            oneByteCalls) t oneRead).any fun t => (t.own false).reply.isSome) = true := by
    decide +kernel
  obtain ⟨c, hc, hrest⟩ := (Option.any_eq_true _ _).1 hall
  obtain ⟨t₁, h₁, hrest⟩ := (Option.any_eq_true _ _).1 hrest
  rw [Bool.and_eq_true, beq_iff_eq, decide_eq_false_iff_not] at hrest
  obtain ⟨hstart, hrest⟩ := hrest
  obtain ⟨t₂, h₂, hsome⟩ := (Option.any_eq_true _ _).1 hrest
  rw [oneByteClient, fileClient_eq hc]
  exact ⟨Option.isSome_of_eq_some hc, t₁, t₂, h₁, hstart, h₂, hsome⟩

theorem backed_oneByteClient :
    oneByteClient.Backed firstByte headBlock Store.oneFileDoc oneByteFile :=
  backed_fileClient (by decide) runs_oneByteCalls.1

theorem hasBlock_oneByteClient : oneByteClient.HasBlock 0 1 :=
  backed_oneByteClient.hasBlock (Or.inr ⟨0, rfl⟩) rfl

theorem together_oneByteCalls : oneByteFile.Together oneByteCalls := by
  refine ⟨fun i => ⟨0, by cases i <;> rfl, by cases i <;> decide⟩, fun i _ => ?_,
    fun i j hne hi hj => ?_⟩
  · cases i <;> exact Or.inl rfl
  · cases i with
    | false => cases hi
    | true =>
      cases j with
      | false => cases hj
      | true => exact absurd rfl hne

theorem fresh_oneByteCalls : oneByteClient.Fresh firstByte
    (oneByteClient.stored (.insert Key)) {d | Names firstByte headBlock d} oneByteFile
    oneByteCalls := by
  rintro i n b ⟨hkind, hn, hb⟩
  cases i with
  | false => cases hkind
  | true =>
    obtain rfl : 0 = n := Option.some.inj hn
    obtain rfl : b = 0 := List.mem_singleton.1 hb
    exact hasBlock_oneByteClient.names_newBlock (x := 2) (by decide)

/-- The read gets the block before the put, and misses it. -/
theorem Backed.serves_reads_oneByte : ∃ t₁ t₂ r,
    Runs.exec (together firstByte (Store.blocks (.insert Key) {}) oneByteCalls)
      (oneByteClient.begin oneByteCalls) beforePut = some t₁ ∧
    Runs.exec (together firstByte (Store.blocks (.insert Key) {}) oneByteCalls) t₁ oneRead =
      some t₂ ∧
    ∃ version, (∀ b ∈ (oneByteCalls false).blocks, oneByteFile.Gets oneByteCalls
        (oneByteClient.Absent firstByte (oneByteClient.stored (.insert Key)) oneByteFile
          oneByteCalls) t₁ t₂ (oneByteFile.node oneByteCalls false) b (version b)) ∧
      FileSys.Returns (oneByteCalls false) version r := by
  obtain ⟨-, t₁, t₂, h₁, hstart, h₂, hsome⟩ := runs_oneByteCalls
  obtain ⟨r, hr⟩ := Option.isSome_iff_exists.1 hsome
  exact ⟨t₁, t₂, r, backed_oneByteClient.serves_reads together_oneByteCalls fresh_oneByteCalls h₁ h₂
    hstart rfl hr⟩

/-- Both requests have begun, over a shelf with the same blocks. -/
theorem Mirrors.schedules_end_oneByte : ∃ t,
    Runs.exec (together firstByte shelf.recorded oneByteCalls)
      ((oneByteClient.onShelf headBlock).begin oneByteCalls) (beforePut ++ oneRead) = some t ∧
    (beforePut ++ oneRead).length ≤ ∑ i, (oneByteCalls i).maxSteps ∧
      ∃ sched' t', Runs.exec (together firstByte shelf.recorded oneByteCalls) t sched' = some t' ∧
        ∀ i, (t'.own i).reply.isSome := by
  obtain ⟨-, t₁, t₂, h₁, -, h₂, -⟩ := runs_oneByteCalls
  obtain ⟨t, ht⟩ := backed_oneByteClient.runs_onShelf together_oneByteCalls fresh_oneByteCalls
    (Threads.exec_append h₁ h₂)
  exact ⟨t, ht, backed_oneByteClient.onShelf.schedules_end shelf_lasting
    (names_injOn firstByte headBlock) together_oneByteCalls
    (backed_oneByteClient.fresh_onShelf fresh_oneByteCalls) ht⟩

/-! ## Two blocks, written at the same time -/

/-- A client with a file of two blocks, which have one chunk. -/
def twoBlockClient : Client (Store Key ℕ) ℕ := fileClient (1 :: List.replicate 4095 0 ++ [1])

/-- Its file system. -/
def twoBlockFile : FileSys ℕ := fileSystem (1 :: List.replicate 4095 0 ++ [1])

/-- A write of the first byte of each block. -/
def twoBlockCalls (i : Bool) : IoCall :=
  ⟨.write, 0, [if i then 6 else 5], (i.toNat : ℤ) * 4096, sevens⟩

/-- The two writes take turns. -/
def turns : List Bool := (List.replicate 7 [true, false]).flatten

/-- The file is made, and both writes return. -/
theorem runs_twoBlockCalls :
    (sevensClient.servesOps (fileOps (1 :: List.replicate 4095 0 ++ [1]))).isSome ∧ ∃ t,
      Runs.exec (together firstByte (Store.checked (.insert Key) firstByte headBlock)
        twoBlockCalls) (twoBlockClient.begin twoBlockCalls) turns = some t ∧
      ∀ i, (t.own i).reply.isSome := by
  have hall : (sevensClient.servesOps (fileOps (1 :: List.replicate 4095 0 ++ [1]))).any (fun c =>
      (Runs.exec (together firstByte (Store.checked (.insert Key) firstByte headBlock)
        twoBlockCalls) (c.begin twoBlockCalls) turns).any fun t =>
          (t.own true).reply.isSome && (t.own false).reply.isSome) = true := by
    decide +kernel
  obtain ⟨c, hc, hrest⟩ := (Option.any_eq_true _ _).1 hall
  obtain ⟨t, ht, hret⟩ := (Option.any_eq_true _ _).1 hrest
  rw [Bool.and_eq_true] at hret
  rw [twoBlockClient, fileClient_eq hc]
  exact ⟨Option.isSome_of_eq_some hc, t, ht, Bool.forall_bool.2 ⟨hret.2, hret.1⟩⟩

theorem length_twoBlocks : (1 :: List.replicate 4095 0 ++ [1] : List UInt8).length = 4097 := by
  rw [List.length_append, List.length_cons, List.length_replicate]
  rfl

theorem backed_twoBlockClient :
    twoBlockClient.Backed firstByte headBlock Store.oneFileDoc twoBlockFile :=
  backed_fileClient (by rw [length_twoBlocks]; decide) runs_twoBlockCalls.1

theorem hasBlock_twoBlockClient (i : Bool) : twoBlockClient.HasBlock i.toNat 1 :=
  backed_twoBlockClient.hasBlock (Or.inr ⟨0, rfl⟩) (by cases i <;> decide +kernel)

theorem blocks_twoBlockCalls (i : Bool) : (twoBlockCalls i).blocks = [i.toNat] := by
  cases i <;> rfl

theorem together_twoBlockCalls : twoBlockFile.Together twoBlockCalls := by
  have hne : (1 :: List.replicate 4095 0 ++ [1] : List UInt8) ≠ [] := List.cons_ne_nil _ _
  have hlen : (twoBlockFile.bytes 0).length = 4097 := (length_fileSystem hne).trans length_twoBlocks
  refine ⟨fun i => ⟨0, rfl, ?_⟩, fun i hi => ?_, fun i j hne _ _ _ => ?_⟩
  · simp only [hlen]
    cases i <;> decide
  · cases hi
  · rw [blocks_twoBlockCalls, blocks_twoBlockCalls]
    cases i <;> cases j <;> simp at hne ⊢

theorem fresh_twoBlockCalls : twoBlockClient.Fresh firstByte
    (twoBlockClient.stored (.insert Key)) {d | Names firstByte headBlock d} twoBlockFile
    twoBlockCalls := by
  rintro i n b ⟨-, hn, hb⟩
  obtain rfl : 0 = n := Option.some.inj hn
  rw [blocks_twoBlockCalls, List.mem_singleton] at hb
  subst hb
  exact (hasBlock_twoBlockClient i).names_newBlock (by cases i <;> decide)

/-- The write that began first is the second one of the order. -/
theorem Backed.serves_writes_twoBlocks : ∃ t,
    Runs.exec (together firstByte (Store.blocks (.insert Key) {}) twoBlockCalls)
        (twoBlockClient.begin twoBlockCalls) turns = some t ∧
    (∀ i, (twoBlockCalls i).kind = .write →
      (t.own i).reply = some { ret := some ((twoBlockCalls i).buf.length : ℤ) }) ∧
    ∃ s', Runs.exec (fun s i => (s.step (twoBlockCalls i).fileCall).map Prod.fst) twoBlockFile
        [false, true] = some s' ∧
      t.shared.Backed firstByte headBlock Store.oneFileDoc s' := by
  obtain ⟨-, t, ht, hret⟩ := runs_twoBlockCalls
  exact ⟨t, backed_twoBlockClient.serves_writes together_twoBlockCalls fresh_twoBlockCalls ht
    (fun i _ => hret i) (fun i _ => by cases i <;> decide)⟩

end Client

end Agilefs
