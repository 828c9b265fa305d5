import Agilefs.FileSys
import Agilefs.Threads

/-!
# Requests at the same time

FUSE runs the requests to the client in threads of its own. Those that read and write open files
share the contexts of the handles, the metafiles and the store of blocks; the locks on the metafiles
are commented out in the source. `Client.act` has each access to what is shared as a step of its
own, with the variables of `fuse_write` and `fuse_read` in between (`WritePc`, `ReadPc`).

A request alone takes these steps to where `Client.fuseWrite` and `Client.fuseRead` lead
(`fuseWrite_reaches`, `fuseRead_reaches`).
-/

namespace Agilefs

open CInt Posix Function ByteFile

variable {B P : Type*}

/-! ## Where a request is -/

/-- A request that reads or writes an open file. -/
inductive IoKind where
  | write
  | read
  deriving DecidableEq

/-- Its arguments, and what the stack has in `hash_key`. -/
structure IoCall where
  kind : IoKind
  fh : ℕ
  buf : List UInt8
  offset : ℤ
  junk : Key

/-- The variables of `fuse_write` at the test of its loop. -/
structure WriteVars where
  fd : ℤ
  stSize : ℤ
  hashKey : Key
  i : ℤ

/-- What `fuse_write` is about to do, with its variables. -/
inductive WritePc where
  | start
  | entry (x : WriteVars)
  | base (x : WriteVars)
  | clear (x : WriteVars) (data : List UInt8)
  | publish (x : WriteVars) (data : List UInt8)
  | put (x : WriteVars) (data : List UInt8)
  | grow (x : WriteVars)
  | returned (ret : Option ℤ)

/-- The variables of `fuse_read` at the test of its loop. -/
structure ReadVars where
  fd : ℤ
  stop : ℤ
  hashKey : Key
  buf : List UInt8
  rdcount : ℤ
  i : ℤ

/-- What `fuse_read` is about to do, with its variables. -/
inductive ReadPc where
  | start
  | entry (x : ReadVars)
  | block (x : ReadVars)
  | returned (buf : List UInt8) (ret : Option ℤ)

/-- Where a request is. -/
inductive IoPc where
  | writing (pc : WritePc)
  | reading (pc : ReadPc)

/-- The request has not begun. -/
def IoKind.start : IoKind → IoPc
  | .write => .writing .start
  | .read => .reading .start

/-- The request has returned this. -/
def IoPc.reply : IoPc → Option FileReply
  | .writing (.returned ret) => some { ret }
  | .reading (.returned buf ret) => some ⟨ret, buf⟩
  | _ => none

namespace Client

/-! ## The steps -/

/-- `size_to_write` at byte `i`. -/
def sizeToWrite (buf : List UInt8) (offset i : ℤ) : ℤ :=
  min (int64 (buf.length + offset - i)) (4096 - i % 4096)

/-- The test of the loop of `fuse_write`. -/
def writeTest (buf : List UInt8) (offset : ℤ) (x : WriteVars) : WritePc :=
  if uint64 x.i < uint64 (offset + buf.length) then .entry x else .grow x

/-- A step of `fuse_write`. -/
def writeAct (doHash : List UInt8 → Key) (st : BlockStore B) (io : Io) (fh : ℕ) (buf : List UInt8)
    (offset : ℤ) (junk : Key) (c : Client B P) : WritePc → Option (Client B P × WritePc)
  | .start => (c.contexts fh).map fun ctx =>
    (c, writeTest buf offset ⟨ctx.fd, ctx.stSize, junk, offset⟩)
  | .entry x =>
    let x := { x with hashKey := readKey c.os io x.fd x.i x.hashKey }
    some (c, if sizeToWrite buf offset x.i ≠ 4096 then .base x
      else .clear x (List.replicate 4096 0))
  | .base x =>
    let data := List.replicate 4096 0
    some (c, .clear x (((st.blockRead c.store x.hashKey 4096 0).map (overlay data)).getD data))
  | .clear x data => (st.delChunk c.store x.hashKey).map fun (store, _) =>
    let part := (buf.drop (x.i - offset).toNat).take (sizeToWrite buf offset x.i).toNat
    let data := ByteFile.pwrite data part (x.i % 4096).toNat
    ({ c with store }, .publish { x with hashKey := doHash data } data)
  | .publish x data =>
    let (os, res) := c.os.pwrite (io.pwrite (entryOffset x.i)) x.fd x.hashKey.val (entryOffset x.i)
    some ({ c with os }, if res ≠ 16 then .returned none else .put x data)
  | .put x data => (st.putNewChunk c.store x.hashKey data).map fun (store, res) =>
    ({ c with store }, if res ≠ 0 then .returned none
      else writeTest buf offset { x with i := x.i + sizeToWrite buf offset x.i })
  | .grow x => (c.contexts fh).map fun ctx =>
    let ctx := { ctx with stSize := grownSize x.stSize (offset + buf.length) }
    ({ c with contexts := update c.contexts fh (some ctx) }, .returned (some (int32 buf.length)))
  | .returned _ => none

/-- The test of the loop of `fuse_read`. -/
def readTest (x : ReadVars) : ReadPc :=
  if x.i < x.stop then .entry x else .returned x.buf (some x.rdcount)

/-- A step of `fuse_read`, without a cache. -/
def readAct (st : BlockStore B) (io : Io) (fh : ℕ) (buf : List UInt8) (offset : ℤ) (junk : Key)
    (c : Client B P) : ReadPc → Option (Client B P × ReadPc)
  | .start => (c.contexts fh).map fun ctx =>
    (c, readTest ⟨ctx.fd, readStop ctx.stSize offset buf.length, junk, buf, 0, offset⟩)
  | .entry x =>
    some (c, match c.os.pread (io.pread (entryOffset x.i)) x.fd 16 (entryOffset x.i) with
      | none => .returned x.buf none
      | some d => .block { x with hashKey := x.hashKey.load d })
  | .block x =>
    let len := (min 4096 (int64 (buf.length - x.i + offset))).toNat
    let res := st.blockRead c.store x.hashKey len (x.i % 4096)
    some (c, readTest { x with
      buf := ByteFile.pwrite x.buf (res.getD []) (x.i - offset).toNat
      rdcount := int32 (x.rdcount + (res.map fun d => (d.length : ℤ)).getD (-1))
      i := x.i + min (int64 (buf.length + offset - x.i)) (4096 - x.i % 4096) })
  | .returned _ _ => none

/-- A step of a request. -/
def act (doHash : List UInt8 → Key) (st : BlockStore B) (io : Io) (q : IoCall) (c : Client B P) :
    IoPc → Option (Client B P × IoPc)
  | .writing pc =>
    (writeAct doHash st io q.fh q.buf q.offset q.junk c pc).map fun r => (r.1, .writing r.2)
  | .reading pc =>
    (readAct st io q.fh q.buf q.offset q.junk c pc).map fun r => (r.1, .reading r.2)

/-- The requests `q`, before they begin. -/
def begin {ι : Type*} (c : Client B P) (q : ι → IoCall) : Threads ι (Client B P) IoPc :=
  ⟨c, fun i => (q i).kind.start⟩

variable {doHash : List UInt8 → Key} {st : BlockStore B} {io : Io} {fh : ℕ} {buf : List UInt8}
  {offset : ℤ} {junk : Key} {c c' : Client B P}

/-! ## A request alone -/

section Alone

/-- The step relation of a `fuse_write` alone. -/
def WritesTo (doHash : List UInt8 → Key) (st : BlockStore B) (io : Io) (fh : ℕ) (buf : List UInt8)
    (offset : ℤ) (junk : Key) : Client B P × WritePc → Client B P × WritePc → Prop :=
  Relation.ReflTransGen fun x y => writeAct doHash st io fh buf offset junk x.1 x.2 = some y

/-- Where the steps are between two iterations. -/
def writeAt (buf : List UInt8) (offset : ℤ) (c : Client B P) (ctx : FileContext)
    (w : WriteState B P) : Client B P × WritePc :=
  ({ c with os := w.os, store := w.store },
    if w.ok then writeTest buf offset ⟨ctx.fd, ctx.stSize, w.hashKey, w.i⟩ else .returned none)

/-- The steps of one iteration. -/
theorem writeBody_reaches {ctx : FileContext} {w w' : WriteState B P} (hok : w.ok = true)
    (hlt : uint64 w.i < uint64 (offset + buf.length))
    (h : writeBody doHash st io ctx.fd buf offset w = some w') :
    WritesTo doHash st io fh buf offset junk (writeAt buf offset c ctx w)
      (writeAt buf offset c ctx w') := by
  set cw : Client B P := { c with os := w.os, store := w.store } with hcw
  set x : WriteVars := ⟨ctx.fd, ctx.stSize, readKey w.os io ctx.fd w.i w.hashKey, w.i⟩ with hx
  set zeros : List UInt8 := List.replicate 4096 0 with hzeros
  set base : List UInt8 := if sizeToWrite buf offset w.i ≠ 4096 then
    ((st.blockRead w.store x.hashKey 4096 0).map (overlay zeros)).getD zeros else zeros with hbase
  have hstart : writeAt buf offset c ctx w =
      (cw, .entry ⟨ctx.fd, ctx.stSize, w.hashKey, w.i⟩) := by
    rw [writeAt, if_pos hok, writeTest, if_pos hlt]
  have hread : WritesTo doHash st io fh buf offset junk
      (cw, .entry ⟨ctx.fd, ctx.stSize, w.hashKey, w.i⟩) (cw, .clear x base) := by
    refine .head (b := (cw, if sizeToWrite buf offset w.i ≠ 4096 then .base x
      else .clear x zeros)) rfl ?_
    by_cases hpart : sizeToWrite buf offset w.i ≠ 4096
    · rw [if_pos hpart, hbase, if_pos hpart]
      exact .single rfl
    · rw [if_neg hpart, hbase, if_neg hpart]
  rw [hstart]
  refine hread.trans ?_
  obtain ⟨⟨store, ret⟩, hdel, hrest⟩ := Option.bind_eq_some_iff.1 h
  set data := blockData st w.store x.hashKey buf offset w.i (sizeToWrite buf offset w.i) with hdata
  have hclear : writeAct doHash st io fh buf offset junk cw (.clear x base) =
      some ({ cw with store }, .publish { x with hashKey := doHash data } data) := by
    simp only [writeAct]
    rw [show st.delChunk cw.store x.hashKey = some (store, ret) from hdel]
    rfl
  refine .head hclear ?_
  -- the entry is written, then the block put
  rcases hw : w.os.pwrite (io.pwrite (entryOffset w.i)) ctx.fd (doHash data).val
    (entryOffset w.i) with ⟨os, res⟩
  have hpublish : writeAct doHash st io fh buf offset junk { cw with store }
      (.publish { x with hashKey := doHash data } data) =
      some ({ cw with store, os }, if res ≠ 16 then .returned none
        else .put { x with hashKey := doHash data } data) := by
    simp only [writeAct]
    rw [show ({ cw with store } : Client B P).os.pwrite (io.pwrite (entryOffset x.i)) x.fd
      (doHash data).val (entryOffset x.i) = (os, res) from hw]
  refine .head hpublish ?_
  have hrest' : (if res ≠ 16 then some ⟨os, store, doHash data, w.i, false⟩
      else (st.putNewChunk store (doHash data) data).map fun (store, res) =>
        if res ≠ 0 then ⟨os, store, doHash data, w.i, false⟩
        else ⟨os, store, doHash data, w.i + sizeToWrite buf offset w.i, true⟩) = some w' := by
    have hpair : (os, res) = w.os.pwrite (io.pwrite (entryOffset w.i)) ctx.fd (doHash data).val
      (entryOffset w.i) := hw.symm
    obtain ⟨rfl, rfl⟩ := Prod.mk.inj hpair
    exact hrest
  split_ifs at hrest' with hres
  · obtain rfl := Option.some.inj hrest'
    rw [if_pos hres]
    exact .refl
  · rw [if_neg hres]
    obtain ⟨⟨store', ret'⟩, hput, rfl⟩ := Option.map_eq_some_iff.1 hrest'
    refine .single ?_
    have hput' : st.putNewChunk ({ cw with store, os } : Client B P).store (doHash data) data =
      some (store', ret') := hput
    simp only [writeAct, hput', Option.map_some]
    split_ifs <;> rfl

/-- A request that `Client.fuseWrite` serves. -/
theorem fuseWrite_reaches {ret : Option ℤ}
    (h : c.fuseWrite doHash st io fh buf offset junk = some (c', ret)) :
    WritesTo doHash st io fh buf offset junk (c, .start) (c', .returned ret) := by
  obtain ⟨ctx, hctx, hrest⟩ := Option.bind_eq_some_iff.1 h
  obtain ⟨w, hloop, heq⟩ := Option.map_eq_some_iff.1 hrest
  have hstart : WritesTo doHash st io fh buf offset junk (c, .start)
      (writeAt buf offset c ctx ⟨c.os, c.store, junk, offset, true⟩) := by
    refine .single ?_
    simp only [writeAct, hctx, Option.map_some]
    rfl
  obtain ⟨hreach, hcond⟩ := Loop.run_invariant
    (I := fun w => WritesTo doHash st io fh buf offset junk (c, .start)
      (writeAt buf offset c ctx w)) (fun w w' hw hcond hbody => by
        rw [Bool.and_eq_true, decide_eq_true_eq] at hcond
        exact hw.trans (writeBody_reaches hcond.1 hcond.2 hbody)) hstart hloop
  refine hreach.trans ?_
  simp only at heq
  split_ifs at heq with hok
  · obtain ⟨rfl, rfl⟩ := Prod.mk.inj heq
    have hge : ¬uint64 w.i < uint64 (offset + buf.length) := by simpa [hok] using hcond
    rw [writeAt, if_pos hok, writeTest, if_neg hge]
    refine .single ?_
    simp only [writeAct, hctx, Option.map_some]
  · obtain ⟨rfl, rfl⟩ := Prod.mk.inj heq
    rw [writeAt, if_neg hok]

/-- The step relation of a `fuse_read` alone. -/
def ReadsTo (st : BlockStore B) (io : Io) (fh : ℕ) (buf : List UInt8) (offset : ℤ) (junk : Key) :
    Client B P × ReadPc → Client B P × ReadPc → Prop :=
  Relation.ReflTransGen fun x y => readAct st io fh buf offset junk x.1 x.2 = some y

/-- Where the steps are between two iterations. -/
def readAt (ctx : FileContext) (stop : ℤ) (r : ReadState Unit) : ReadPc :=
  if r.ok then readTest ⟨ctx.fd, stop, r.hashKey, r.buf, r.rdcount, r.i⟩ else .returned r.buf none

/-- The steps of one iteration. -/
theorem readBody_reaches {ctx : FileContext} {stop : ℤ} {r : ReadState Unit} (hok : r.ok = true)
    (hlt : r.i < stop) : ReadsTo st io fh buf offset junk (c, readAt ctx stop r)
      (c, readAt ctx stop (readBody noCache st c.store c.os io ctx.fd buf.length offset r)) := by
  have hstart : readAt ctx stop r =
      .entry ⟨ctx.fd, stop, r.hashKey, r.buf, r.rdcount, r.i⟩ := by
    rw [readAt, if_pos hok, readTest, if_pos hlt]
  rw [hstart]
  cases hread : c.os.pread (io.pread (entryOffset r.i)) ctx.fd 16 (entryOffset r.i) with
  | none =>
    refine .single ?_
    simp only [readAct, readBody, hread, readAt, Bool.false_eq_true, if_false]
  | some d =>
    refine .head (b := (c, .block ⟨ctx.fd, stop, r.hashKey.load d, r.buf, r.rdcount, r.i⟩)) ?_
      (.single ?_)
    · simp only [readAct, hread]
    · simp only [readAct, readBody, hread, readAt, noCache, if_true]

/-- A request that `Client.fuseRead` serves. -/
theorem fuseRead_reaches {buf' : List UInt8} {ret : Option ℤ}
    (h : c.fuseRead noCache st () io fh buf offset junk = some ((), buf', ret)) :
    ReadsTo st io fh buf offset junk (c, .start) (c, .returned buf' ret) := by
  obtain ⟨ctx, hctx, hrest⟩ := Option.bind_eq_some_iff.1 h
  obtain ⟨r, hloop, heq⟩ := Option.map_eq_some_iff.1 hrest
  set stop := readStop ctx.stSize offset buf.length with hstop
  have hstart : ReadsTo st io fh buf offset junk (c, .start)
      (c, readAt ctx stop ⟨(), junk, buf, 0, offset, true⟩) := by
    refine .single ?_
    simp only [readAct, hctx, Option.map_some]
    rfl
  obtain ⟨hreach, hcond⟩ := Loop.run_invariant
    (I := fun r => ReadsTo st io fh buf offset junk (c, .start) (c, readAt ctx stop r))
    (fun r r' hr hcond hbody => by
      obtain rfl := Option.some.inj hbody
      rw [Bool.and_eq_true, decide_eq_true_eq] at hcond
      exact hr.trans (readBody_reaches hcond.1 hcond.2)) hstart hloop
  obtain ⟨-, rfl, rfl⟩ : (() : Unit) = () ∧ r.buf = buf' ∧ _ = ret := by
    simpa only [Prod.mk.injEq] using heq
  cases hok : r.ok with
  | false => simpa [readAt, hok] using hreach
  | true =>
    have hge : ¬r.i < stop := by simpa [hok] using hcond
    simpa [readAt, hok, readTest, hge] using hreach

end Alone

end Client

end Agilefs
