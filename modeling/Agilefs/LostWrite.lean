import Agilefs.SharedStore

/-!
# Two writes to one block

Two writes to one block each read it, lay their part over it, and put what they have and write its
key. With the locks commented out, nothing keeps one from coming in between : for any two such
writes, of which the first is of a part of the block, `Mirrors.loses_write` has a schedule after
which both have returned all of their bytes, and the file is as if only the first had been made.
-/

namespace Agilefs

open CInt Posix Function ByteFile

variable {B P : Type*}

/-- A write begins at its start. -/
theorem Client.begin_own_write {ι : Type*} {c : Client B P} {q : ι → IoCall} {i : ι}
    (hkind : (q i).kind = .write) : (c.begin q).own i = .writing .start := by
  show (q i).kind.start = _
  rw [hkind]
  rfl

namespace Batch

variable {doHash : List UInt8 → Key} {v : StoreView B} {S : Set (List UInt8)} {c₀ c : Client B P}
  {bytes : ℕ → ByteFile} {st : BlockStore B} {T : Batch Unit doHash v S c₀ bytes} {b : ℕ}

/-! ## The first write -/

/-- A write inside block `b`. -/
structure InBlock (T : Batch Unit doHash v S c₀ bytes) (b : ℕ) : Prop where
  kind : (T.call ()).kind = .write
  blocks : (T.call ()).blocks = [b]

theorem InBlock.lt (h : T.InBlock b) : (T.call ()).offset < (T.call ()).stop := by
  have hmem : b ∈ touched (T.call ()).offset (T.call ()).stop := by
    have hblocks : touched (T.call ()).offset (T.call ()).stop = [b] := h.blocks
    rw [hblocks]
    exact List.mem_singleton_self b
  exact ((mem_touched (T.nonneg ())).1 hmem).1

/-- The block of the first byte. -/
theorem InBlock.blockIndex (h : T.InBlock b) : Agilefs.blockIndex (T.call ()).offset = b := by
  have hmem : Agilefs.blockIndex (T.call ()).offset ∈ (T.call ()).blocks :=
    blockIndex_mem_touched (T.nonneg ()) le_rfl h.lt
  rw [h.blocks, List.mem_singleton] at hmem
  exact hmem

/-- All bytes are in the block. -/
theorem InBlock.chunkLen (h : T.InBlock b) :
    (T.call ()).offset + Client.chunkLen (T.call ()).stop (T.call ()).offset =
      (T.call ()).stop := by
  have h₀ := T.nonneg ()
  have hlt := h.lt
  have hindex := h.blockIndex
  have hlast : ∀ m : ℕ, m ∈ (T.call ()).blocks → m = b := fun m hm => by
    rwa [h.blocks, List.mem_singleton] at hm
  have hm := hlast (((T.call ()).stop - 1) / 4096).toNat (by
    rw [IoCall.blocks, mem_touched h₀]
    omega)
  unfold Agilefs.blockIndex at hindex
  unfold Client.chunkLen
  omega

/-- The steps of the write `T`. -/
abbrev Writing (T : Batch Unit doHash v S c₀ bytes) (st : BlockStore B) :
    Client B P × WritePc → Client B P × WritePc → Prop :=
  Client.WritesTo doHash st {} (T.call ()).fh (T.call ()).buf (T.call ()).offset (T.call ()).junk

/-- A write of a part of the block comes to where it has read it. -/
theorem InBlock.reads_base (hst : st.Lasting v) (hfresh : T.Fresh) (h : T.InBlock b)
    (hpart : (T.call ()).buf.length < 4096) :
    ∃ x data, T.Writing st (c₀, .start) (c₀, .clear x data) ∧ x.i = (T.call ()).offset ∧
      T.WriteInv st () c₀ (.clear x data) := by
  have hstop : (T.call ()).stop = (T.call ()).offset + (T.call ()).buf.length := rfl
  have hlen := h.chunkLen
  have hstart : T.WriteInv st () c₀ .start := by
    have hinv := ((T.holds_begin st).2 ()).1
    rw [show T.begin.own () = _ from Client.begin_own_write h.kind] at hinv
    exact hinv.2
  set x₀ : WriteVars := ⟨T.fd (), ((bytes (T.node ())).length : ℤ), (T.call ()).junk,
    (T.call ()).offset⟩ with hx₀
  have hcond : uint64 (T.call ()).offset < uint64 ((T.call ()).offset + (T.call ()).buf.length) :=
    (Client.writeCond_iff (T.nonneg ()) (T.lt_stop ()) h.lt.le).2 h.lt
  have hact₀ : Client.writeAct doHash st {} (T.call ()).fh (T.call ()).buf (T.call ()).offset
      (T.call ()).junk c₀ .start = some (c₀, .entry x₀) := by
    simp only [Client.writeAct, T.context (), Option.map_some, Client.writeTest, if_pos hcond,
      hx₀]
  obtain ⟨-, hinv₀, -⟩ := writeAct_keeps hst hfresh h.kind T.frame_start hstart hact₀
  have hsize : Client.sizeToWrite (T.call ()).buf (T.call ()).offset x₀.i ≠ 4096 := by
    have hi₀ : x₀.i = (T.call ()).offset := rfl
    rw [sizeToWrite_eq hinv₀.1, hi₀]
    omega
  have hact₁ : Client.writeAct doHash st {} (T.call ()).fh (T.call ()).buf (T.call ()).offset
      (T.call ()).junk c₀ (.entry x₀) =
        some (c₀, .base { x₀ with hashKey := readKey c₀.os {} x₀.fd x₀.i x₀.hashKey }) := by
    simp only [Client.writeAct, if_pos hsize]
  obtain ⟨-, hinv₁, -⟩ := writeAct_keeps hst hfresh h.kind T.frame_start hinv₀ hact₁
  obtain ⟨-, hinv₂, -⟩ := writeAct_keeps hst hfresh h.kind T.frame_start hinv₁ rfl
  exact ⟨_, _, .head hact₀ (.head hact₁ (.single rfl)), rfl, hinv₂⟩

/-- From there it comes to its end, whatever has become of the metafile and the store. -/
theorem InBlock.finishes (hst : st.Lasting v) (h : T.InBlock b) {x : WriteVars} {data : List UInt8}
    (hi : x.i = (T.call ()).offset) (hinv : T.WriteInv st () c₀ (.clear x data))
    (hino : c.os.ino (T.fd ()) = some (T.node ())) (hctx : c.contexts = c₀.contexts) :
    ∃ store, T.Writing st (c, .clear x data)
        ({ c with
          os := c.os.setContent (T.node ()) ((c.os.inodes (T.node ())).pwrite
            ((T.job ()).newKey b).val (b * 16 + 16))
          store }, .returned (some ((T.call ()).buf.length : ℤ))) ∧
      v.chunk store = update (v.chunk c.store) ((T.job ()).newKey b)
        (some ((v.chunk c.store ((T.job ()).newKey b)).getD ((T.job ()).newBlock b))) := by
  obtain ⟨hx, -, s, hdata, hs⟩ := hinv
  have h₀ := T.nonneg ()
  have hb : Agilefs.blockIndex x.i = b := hi ▸ h.blockIndex
  have hnew := data_eq hst hx hs
  rw [← hdata, hb] at hnew
  set J := T.job () with hJ
  set x' : WriteVars := { x with hashKey := J.newKey b } with hx'
  -- the old key is deleted
  obtain ⟨store₁, ret₁, hdel, hchunk₁⟩ := hst.del c.store x.hashKey
  have hclear : Client.writeAct doHash st {} (T.call ()).fh (T.call ()).buf (T.call ()).offset
      (T.call ()).junk c (.clear x data) =
        some ({ c with store := store₁ }, .publish x' (J.newBlock b)) := by
    simp only [Client.writeAct, hdel, Option.map_some, sizeToWrite_eq hx, Int.toNat_natCast, hnew]
    rfl
  -- the new one is written
  set os' := c.os.setContent (T.node ())
    ((c.os.inodes (T.node ())).pwrite (J.newKey b).val (b * 16 + 16)) with hos'
  have hpublish : Client.writeAct doHash st {} (T.call ()).fh (T.call ()).buf (T.call ()).offset
      (T.call ()).junk { c with store := store₁ } (.publish x' (J.newBlock b)) =
        some ({ c with os := os', store := store₁ }, .put x' (J.newBlock b)) := by
    have hwrite := Os.pwrite_full hino (J.newKey b).val (b * 16 + 16)
    rw [← hb, ← entryOffset_eq (h₀.trans hx.ge), hb] at hwrite
    have hfd : x'.fd = T.fd () := hx.fd
    have hi' : x'.i = x.i := rfl
    have hkey : x'.hashKey = J.newKey b := rfl
    simp only [Client.writeAct, hfd, hi', hkey, hwrite, (J.newKey b).property]
    rfl
  -- its block is put
  obtain ⟨store₂, ret₂, hput, hspec⟩ := hst.put store₁ (J.newKey b) (J.newBlock b)
  obtain ⟨rfl, hchunk₂⟩ := hspec (J.length_overwritten _ _)
  have hdone : Client.writeAct doHash st {} (T.call ()).fh (T.call ()).buf (T.call ()).offset
      (T.call ()).junk { c with os := os', store := store₁ } (.put x' (J.newBlock b)) =
        some ({ c with os := os', store := store₂ },
          .grow { x' with i := (T.call ()).stop }) := by
    have hnext : x'.i + Client.sizeToWrite (T.call ()).buf (T.call ()).offset x'.i =
        (T.call ()).stop := by
      have hi' : x'.i = x.i := rfl
      rw [hi', sizeToWrite_eq hx, hi, h.chunkLen]
    have hend : ¬uint64 (T.call ()).stop <
        uint64 ((T.call ()).offset + (T.call ()).buf.length) := lt_irrefl _
    have hput' : st.putNewChunk store₁ x'.hashKey (J.newBlock b) = some (store₂, 0) := hput
    simp only [Client.writeAct, hput', Option.map_some, ne_eq, not_true_eq_false, if_false, hnext,
      Client.writeTest, if_neg hend]
  have hgrow : Client.writeAct doHash st {} (T.call ()).fh (T.call ()).buf (T.call ()).offset
      (T.call ()).junk { c with os := os', store := store₂ }
        (.grow { x' with i := (T.call ()).stop }) =
        some ({ c with os := os', store := store₂ },
          .returned (some ((T.call ()).buf.length : ℤ))) :=
    writeAct_grow (by rw [hctx]; exact T.context ()) hx.stSize
  refine ⟨store₂, .head hclear (.head hpublish (.head hdone (.single hgrow))), ?_⟩
  rw [hchunk₂, hchunk₁]

/-! ## Both writes -/

/-- The first write is made after the second, and leaves nothing of it. -/
theorem InBlock.frame_lost {T' : Batch Unit doHash v S c₀ bytes} (h : T.InBlock b)
    (h' : T'.InBlock b) (hnode : T'.node () = T.node ()) (hfresh : T.Fresh) (hF : T'.Frame c)
    {store : B} (hchunk : v.chunk store = update (v.chunk c.store) ((T.job ()).newKey b)
      (some ((v.chunk c.store ((T.job ()).newKey b)).getD ((T.job ()).newBlock b))))
    {c' : Client B P} (hc' : c' = { c with
      os := c.os.setContent (T.node ()) ((c.os.inodes (T.node ())).pwrite
        ((T.job ()).newKey b).val (b * 16 + 16))
      store }) : T.Frame c' ∧ T.Done () c' := by
  have hmem : ∀ {U : Batch Unit doHash v S c₀ bytes} {d : ℕ}, U.InBlock b →
      (d ∈ (U.call ()).blocks ↔ d = b) := fun hU => by rw [hU.blocks, List.mem_singleton]
  have hself : T.Writes () (T.node ()) b := ⟨h.kind, rfl, (hmem h).2 rfl⟩
  obtain ⟨hkept, haddr, hstored⟩ := put_keeps hF (hfresh () _ b hself) hchunk
  have hentry : HasEntry (c.os.inodes (T.node ())) b := hnode ▸ hF.hasEntry ((hmem h').2 rfl)
  have hbytes := entryBytes_setContent ((T.job ()).newKey b) hentry
  subst hc'
  refine ⟨⟨?_, hF.contexts, hF.nextFh, fun n d => ?_, fun n hn => ?_,
    fun k d hd => hkept k d (hF.kept k d hd), haddr⟩, ⟨fun d hd _ => ?_, fun d hd hd' => ?_,
    fun d hd => ?_⟩⟩
  · rw [hF.os]
    rfl
  · by_cases hnd : n = T.node () ∧ d = b
    · obtain ⟨rfl, rfl⟩ := hnd
      exact Or.inr ⟨(), hself, (hbytes _ _).trans (if_pos ⟨rfl, rfl⟩)⟩
    · refine Or.inl (((hbytes n d).trans (if_neg hnd)).trans
        ((hF.entries n d).resolve_right ?_))
      rintro ⟨_, ⟨-, hn, hd⟩, -⟩
      exact hnd ⟨hn.symm.trans hnode, (hmem h').1 hd⟩
  · have hne : n ≠ T.node () := by
      rintro rfl
      exact hn () b hself
    refine (update_of_ne hne _ _).trans (hF.inodes n ?_)
    rintro _ d ⟨-, hn', -⟩
    exact hne (hn'.symm.trans hnode)
  · obtain rfl := (hmem h).1 hd
    exact (hbytes _ _).trans (if_pos ⟨rfl, rfl⟩)
  · exact absurd hd hd'
  · obtain rfl := (hmem h).1 hd
    exact hstored

/-- A write that is served alone comes to its end. -/
theorem runs_alone (hst : st.Lasting v) (hfresh : T.Fresh) (haligned : T.Aligned)
    (hkind : (T.call ()).kind = .write) :
    ∃ c, Threads.Reaches (fun _ => Client.act doHash st {} (T.call ())) () (c₀, .writing .start)
        (c, .writing (.returned (some ((T.call ()).buf.length : ℤ)))) ∧ T.Frame c := by
  have hnil : Runs.exec (T.step st) T.begin [] = some T.begin := rfl
  obtain ⟨-, sched, t, hexec, hret⟩ := requests_return hst hfresh haligned hnil
  obtain ⟨r, hr⟩ := Option.isSome_iff_exists.1 (hret ())
  obtain ⟨rfl, -⟩ := write_returned hst hfresh haligned hexec hkind hr
  have hreach := Threads.reaches_of_exec () hexec
  have hstart : T.begin.own () = .writing .start := Client.begin_own_write hkind
  have hI := (T.holds_begin st).exec hst hfresh haligned hexec
  obtain ⟨hown, -⟩ := (hI.2 ()).1.write_pc hkind hr
  rw [hstart, hown] at hreach
  exact ⟨t.shared, hreach, hI.1.1⟩

end Batch

namespace Client

variable {doHash : List UInt8 → Key} {v : StoreView B} {S : Set (List UInt8)} {st : BlockStore B}
  {c : Client (B × List StoreCall) P} {s : FileSys P}

/-- The steps of a write are those of the request. -/
theorem WritesTo.reaches {B ι : Type*} {st : BlockStore B} {io : Io} {q : ι → IoCall} {i : ι}
    {y z : Client B P × WritePc}
    (h : WritesTo doHash st io (q i).fh (q i).buf (q i).offset (q i).junk y z) :
    Threads.Reaches (fun i => act doHash st io (q i)) i (y.1, .writing y.2)
      (z.1, .writing z.2) := by
  induction h with
  | refl => exact .refl
  | tail _ hstep ih =>
    refine ih.tail ?_
    simp only [act, hstep, Option.map_some]

/-- Two writes to block `b` of a file, the first one of a part of it : after some schedule both have
returned all of their bytes, and the file is as if only the first had been made. -/
theorem Mirrors.loses_write (hst : st.Lasting v) (hinj : S.InjOn doHash)
    (h : c.Mirrors doHash v S s) {q : Bool → IoCall} {b : ℕ}
    (hkind : ∀ i, (q i).kind = .write) (hblocks : ∀ i, (q i).blocks = [b])
    (hfile : (q true).fh = (q false).fh) (hpart : (q true).buf.length < 4096)
    (hq : ∀ i, s.Together fun _ : Unit => q i)
    (hfresh : ∀ i, c.Fresh doHash (v.chunk c.store.1) S s fun _ : Unit => q i) :
    ∃ sched t, Runs.exec (together doHash st.recorded q) (c.begin q) sched = some t ∧
      (∀ i, (t.own i).reply = some { ret := some ((q i).buf.length : ℤ) }) ∧
      t.shared.Mirrors doHash v S (s.written (fun _ : Unit => q true) [()]) := by
  set T := fun i => h.batch (hq i) hinj with hT
  have hfresh' : ∀ i, (T i).Fresh := fun i => h.batch_fresh (hq i) hinj (hfresh i)
  have hin : ∀ i, (T i).InBlock b := fun i => ⟨hkind i, hblocks i⟩
  have hnode : (T false).node () = (T true).node () := by
    show (s.handles (q false).fh).getD 0 = (s.handles (q true).fh).getD 0
    rw [hfile]
  -- the first write has read the block when the second one is served
  obtain ⟨x, data, hread, hi, hinv⟩ := (hin true).reads_base hst.recorded (hfresh' true) hpart
  obtain ⟨c₁, halone, hF⟩ := (T false).runs_alone hst.recorded (hfresh' false) (hq false).aligned
    (hkind false)
  have hino : c₁.os.ino ((T true).fd ()) = some ((T true).node ()) := by
    rw [hF.os]
    exact (T true).ino ()
  obtain ⟨store, hfinish, hchunk⟩ := (hin true).finishes hst.recorded hi hinv hino hF.contexts
  obtain ⟨hF₂, hdone⟩ := (hin true).frame_lost (hin false) hnode (hfresh' true) hF hchunk rfl
  have hmirrors := h.after (hq true) hinj hF₂ (fun k d => hst.length _ k d) (fun _ _ => hdone)
    fun _ _ => List.mem_singleton_self ()
  -- the schedule
  set own₀ := (c.begin q).own with hown₀
  have hstart : ∀ i, own₀ i = .writing .start := fun i => begin_own_write (hkind i)
  set own₁ := update own₀ true (.writing (.clear x data)) with hown₁
  set own₂ := update own₁ false (.writing (.returned (some ((q false).buf.length : ℤ)))) with hown₂
  have hfirst : Threads.Reaches (fun i => act doHash st.recorded {} (q i)) true
      ((c.begin q).shared, (c.begin q).own true) (c, .writing (.clear x data)) := by
    rw [← hown₀, hstart true]
    exact WritesTo.reaches (q := q) (i := true) hread
  have hsecond : Threads.Reaches (fun i => act doHash st.recorded {} (q i)) false
      (c, own₁ false) (c₁, .writing (.returned (some ((q false).buf.length : ℤ)))) := by
    rw [hown₁, update_of_ne (by decide), hstart false]
    exact halone
  obtain ⟨n, hthird⟩ := Threads.exec_of_reaches
    (WritesTo.reaches (q := q) (i := true) hfinish) own₂ rfl
  obtain ⟨s₂, hrest⟩ := Threads.exec_reaches_append (t := ⟨c, own₁⟩) hsecond hthird
  obtain ⟨sched, hexec⟩ := Threads.exec_reaches_append (t := c.begin q) hfirst hrest
  refine ⟨sched, _, hexec, fun i => ?_, hmirrors⟩
  cases i <;> rfl

/-- Two writes of the one byte of a file. -/
def twoWrites (i : Bool) : IoCall := ⟨.write, 0, [if i then 2 else 3], 0, sevens⟩

theorem blocks_twoWrites (i : Bool) : (twoWrites i).blocks = [0] := by
  cases i <;> rfl

/-- The byte of the second one is lost, over a shelf with the same blocks. -/
theorem Mirrors.loses_write_oneByte : ∃ sched t,
    Runs.exec (together firstByte shelf.recorded twoWrites)
      ((oneByteClient.onShelf headBlock).begin twoWrites) sched = some t ∧
    (∀ i, (t.own i).reply = some { ret := some ((twoWrites i).buf.length : ℤ) }) ∧
    t.shared.Mirrors firstByte Shelf.view {d | Names firstByte headBlock d}
      (oneByteFile.written (fun _ : Unit => twoWrites true) [()]) := by
  have hfresh : ∀ i, oneByteClient.Fresh firstByte (oneByteClient.stored (.insert Key))
      {d | Names firstByte headBlock d} oneByteFile fun _ : Unit => twoWrites i := by
    rintro i u n b ⟨-, hn, hb⟩
    obtain rfl : 0 = n := Option.some.inj hn
    rw [blocks_twoWrites, List.mem_singleton] at hb
    obtain rfl := hb
    exact hasBlock_oneByteClient.names_newBlock (by cases i <;> decide)
  refine backed_oneByteClient.onShelf.loses_write (b := 0) shelf_lasting
    (names_injOn firstByte headBlock) (fun _ => rfl) blocks_twoWrites rfl (by decide)
    (fun i => ⟨fun _ => ⟨0, rfl, ?_⟩, ?_, ?_⟩)
    fun i => backed_oneByteClient.fresh_onShelf (hfresh i)
  · cases i <;> decide
  · intro _ hi
    cases hi
  · intro j k hjk
    exact absurd (Subsingleton.elim j k) hjk

end Client

end Agilefs
