import Agilefs.Ledger

/-!
# The calls to the store

`BlockStore.recorded` keeps, beside a store, the `put_new_chunk` and `del_chunk` calls made to
it, in order. What the store answers does not change.
-/

namespace Agilefs

variable {B : Type*}

/-- A call that changes the store. -/
inductive StoreCall where
  | put (key : Key) (data : List UInt8)
  | del (key : Key)
  deriving DecidableEq

/-- The key and the data of a put. -/
def StoreCall.putArgs : StoreCall → Option (Key × List UInt8)
  | .put key data => some (key, data)
  | .del _ => none

/-- The puts among the calls. -/
def puts (calls : List StoreCall) : List (Key × List UInt8) :=
  calls.filterMap StoreCall.putArgs

@[simp] theorem puts_nil : puts [] = [] := rfl

@[simp] theorem puts_append (l l' : List StoreCall) : puts (l ++ l') = puts l ++ puts l' :=
  List.filterMap_append

@[simp] theorem puts_put (k : Key) (d : List UInt8) (l : List StoreCall) :
    puts (.put k d :: l) = (k, d) :: puts l := rfl

@[simp] theorem puts_del (k : Key) (l : List StoreCall) : puts (.del k :: l) = puts l := rfl

/-- The key of a delete. -/
def StoreCall.delKey : StoreCall → Option Key
  | .put _ _ => none
  | .del key => some key

/-- The keys deleted by the calls. -/
def dels (calls : List StoreCall) : List Key :=
  calls.filterMap StoreCall.delKey

@[simp] theorem dels_append (l l' : List StoreCall) : dels (l ++ l') = dels l ++ dels l' :=
  List.filterMap_append

theorem dels_map_del {α : Type*} (key : α → Key) (l : List α) :
    dels (l.map fun b => .del (key b)) = l.map key := by
  induction l with
  | nil => rfl
  | cons b l ih => simpa [dels, StoreCall.delKey] using ih

/-- The store and the calls made to it. -/
def BlockStore.recorded (st : BlockStore B) : BlockStore (B × List StoreCall) where
  blockRead s := st.blockRead s.1
  putNewChunk s k d := (st.putNewChunk s.1 k d).map fun (b, ret) => ((b, s.2 ++ [.put k d]), ret)
  delChunk s k := (st.delChunk s.1 k).map fun (b, ret) => ((b, s.2 ++ [.del k]), ret)

variable {st : BlockStore B} {s s' : B × List StoreCall} {k : Key} {d : List UInt8} {ret : ℤ}

theorem recorded_delChunk (h : st.recorded.delChunk s k = some (s', ret)) :
    st.delChunk s.1 k = some (s'.1, ret) ∧ s'.2 = s.2 ++ [.del k] := by
  obtain ⟨r, hr, hs⟩ := Option.map_eq_some_iff.1 h
  rw [Prod.mk.injEq] at hs
  exact ⟨by rw [hr, ← hs.1, ← hs.2], by rw [← hs.1]⟩

theorem recorded_putNewChunk (h : st.recorded.putNewChunk s k d = some (s', ret)) :
    st.putNewChunk s.1 k d = some (s'.1, ret) ∧ s'.2 = s.2 ++ [.put k d] := by
  obtain ⟨r, hr, hs⟩ := Option.map_eq_some_iff.1 h
  rw [Prod.mk.injEq] at hs
  exact ⟨by rw [hr, ← hs.1, ← hs.2], by rw [← hs.1]⟩

theorem recorded_del_isSome (hdel : ∀ b k, (st.delChunk b k).isSome) (s : B × List StoreCall)
    (k : Key) : (st.recorded.delChunk s k).isSome := by
  simpa [BlockStore.recorded] using hdel s.1 k

theorem recorded_put_isSome (hput : ∀ b k d, (st.putNewChunk b k d).isSome)
    (s : B × List StoreCall) (k : Key) (d : List UInt8) :
    (st.recorded.putNewChunk s k d).isSome := by
  simpa [BlockStore.recorded] using hput s.1 k d

/-! ## A file to try -/

open Function in
/-- The metafile `f`, named `0` and open with the handle `0`. -/
def Client.ofFile (f : ByteFile) (stSize : ℤ) (store : B) : Client B ℕ where
  os :=
    { names := update (fun _ => none) 0 (some (.file 0))
      inodes := update (fun _ => []) 0 f
      nextIno := 1
      fds := update (fun _ => none) 3 (some ⟨0, 0⟩)
      nextFd := 4 }
  contexts := update (fun _ => none) 0 (some ⟨3, stSize⟩)
  nextFh := 1
  store := store

/-- The metafile of a file with the given blocks. -/
def metafile (size : ℤ) (keys : List Key) : ByteFile :=
  offBytes size ++ offBytes 0 ++ keys.flatMap Subtype.val

end Agilefs
