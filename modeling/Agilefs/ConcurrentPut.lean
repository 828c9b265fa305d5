import Agilefs.Runs
import Agilefs.StoreInvariant
import Mathlib.Data.Fintype.Basic
import Mathlib.Data.Finset.Card

/-!
# Concurrent puts

Any number of `put_new_chunk` calls that run at the same time on one store, each access to
the database, the chunk files or the allocator an atomic step. Nothing in the store takes a
lock.

Allocation survives every interleaving : a slot once taken belongs to the key it was taken
for, so no two keys share a location. The counts do not : a call that finds a key absent, or
reads its count, acts on this after other calls have changed the record.
`concurrent_puts` : the count of a key grows by at most the number of its calls, and by
exactly this number if none of them starts while another is under way.
-/

namespace Agilefs

open CInt Function

/-- Where a `put_new_chunk` call is, with the values it holds. -/
inductive CallPc where
  | start
  | found (bd : BlockData)
  | absent
  | chosen (i : ℕ)
  | extend (i : ℕ)
  | placed (i : ℕ) (offset : ℤ)
  | written (i : ℕ) (offset : ℤ)
  | returned (ret : ℤ)
  deriving DecidableEq

/-- The call has started and not returned. -/
def CallPc.InFlight (p : CallPc) : Prop :=
  p ≠ .start ∧ ∀ ret, p ≠ .returned ret

/-- The call is in `block_write`. -/
def CallPc.InWrite : CallPc → Prop
  | .absent | .chosen _ | .extend _ | .placed _ _ | .written _ _ => True
  | _ => False

theorem CallPc.InWrite.inFlight {p : CallPc} (h : p.InWrite) : p.InFlight := by
  cases p <;> first | exact h.elim | exact ⟨by simp, by simp⟩

theorem CallPc.inFlight_found (bd : BlockData) : (CallPc.found bd).InFlight :=
  ⟨by simp, by simp⟩

/-- A store and the calls on it. -/
structure Puts (ι K P : Type*) where
  store : Store K P
  pc : ι → CallPc

variable {ι K P : Type*} [DecidableEq ι] [DecidableEq K]

namespace Puts

/-- The calls before they start. -/
def init (s : Store K P) : Puts ι K P := ⟨s, fun _ => .start⟩

/-- The store `s`, and call `c` at `p`. -/
def move (t : Puts ι K P) (c : ι) (s : Store K P) (p : CallPc) : Puts ι K P :=
  ⟨s, update t.pc c p⟩

/-- The next step of the call `e.1`, which ends as `e.2` says. -/
def step (whd : WriteHashDb K) (key : ι → K) (block : ι → Block) (t : Puts ι K P)
    (e : ι × Outcome) : Option (Puts ι K P) :=
  let s := t.store
  let c := e.1
  match t.pc c with
  | .start =>
    let (ret, bd) := dbGet e.2.dbGet s.db (key c)
    some (t.move c s (if ret ≠ 0 then .absent else .found bd))
  | .found bd =>
    let (db, ret) := dbPut e.2.dbPut s.db (key c) { bd with refCount := int32 (bd.refCount + 1) }
    some (t.move c { s with db } (.returned (if ret ≠ 0 then -1 else ret)))
  | .absent =>
    let fdIndex := s.cfi.getProperChunkFile
    if fdIndex < 0 then none else some (t.move c s (.chosen fdIndex.toNat))
  | .chosen i =>
    (s.cfi.fcls i).getFirstFreeChunk.map fun (fcl, ret) =>
      t.move c { s with cfi := s.cfi.setFcl i fcl }
        (if ret = -1 then .extend i else .placed i (ret <<< (12 : ℕ)))
  | .extend i =>
    some (t.move c { s with cfi := s.cfi.grow i } (.placed i (s.cfi.curSize i)))
  | .placed i offset =>
    let (os, ret) := s.os.pwrite e.2.pwrite (s.cfi.fds i) (block c).val offset
    some (t.move c { s with os }
      (if ret = fspSize then .written i offset else .returned (-1)))
  | .written i offset =>
    let (db, x) := whd.run e.2.writeHashDb s.db (key c) offset i
    some (t.move c { s with db } (.returned (if x ≠ 0 then -1 else 0)))
  | .returned _ => none

section Move

omit [DecidableEq K]

@[simp] theorem move_store (t : Puts ι K P) (c : ι) (s : Store K P) (p : CallPc) :
    (t.move c s p).store = s := rfl

theorem move_pc (t : Puts ι K P) (c c' : ι) (s : Store K P) (p : CallPc) :
    (t.move c s p).pc c' = if c' = c then p else t.pc c' :=
  update_apply _ _ _ _

@[simp] theorem move_move (t : Puts ι K P) (c : ι) (s s' : Store K P) (p p' : CallPc) :
    (t.move c s p).move c s' p' = t.move c s' p' := by
  simp [move]

end Move

variable {whd : WriteHashDb K} {key : ι → K} {block : ι → Block}

/-! ## One call alone -/

theorem exec_replicate_of_step {t t₁ t' : Puts ι K P} {e : ι × Outcome}
    (h : step whd key block t e = some t₁)
    (hrest : ∃ n, Runs.exec (step whd key block) t₁ (List.replicate n e) = some t') :
    ∃ n, Runs.exec (step whd key block) t (List.replicate n e) = some t' := by
  obtain ⟨n, hn⟩ := hrest
  exact ⟨n + 1, by simp [List.replicate_succ, Runs.exec, h, hn]⟩

/-- The end of `block_write`, once the slot is found. -/
theorem exec_placed {t : Puts ι K P} {c : ι} {i : ℕ} {offset : ℤ}
    (hc : t.pc c = .placed i offset) (o : Outcome) {os : Posix.Os P} {w : ℤ}
    (hw : t.store.os.pwrite o.pwrite (t.store.cfi.fds i) (block c).val offset = (os, w))
    {db : Db K} {x : ℤ} (hx : whd.run o.writeHashDb t.store.db (key c) offset i = (db, x)) :
    ∃ n, Runs.exec (step whd key block) t (List.replicate n (c, o)) =
      some (if w = fspSize then
          t.move c ⟨t.store.cfi, db, os⟩ (.returned (if x ≠ 0 then -1 else 0))
        else t.move c ⟨t.store.cfi, t.store.db, os⟩ (.returned (-1))) := by
  refine exec_replicate_of_step (by simp only [step, hc, hw]; rfl) ?_
  by_cases hfull : w = (fspSize : ℤ)
  · simp only [if_pos hfull]
    refine exec_replicate_of_step ?_ ⟨0, rfl⟩
    simp only [step, move_pc, if_true, move_store, hx, move_move]
  · simp only [if_neg hfull]
    exact ⟨0, rfl⟩

/-- A call whose steps are not interleaved with others is `put_new_chunk`. -/
theorem exec_alone {t : Puts ι K P} {c : ι} (hc : t.pc c = .start) {o : Outcome}
    {s : Store K P} {ret : ℤ}
    (h : t.store.putNewChunk whd o (key c) (block c).val fspSize = some (s, ret)) :
    ∃ n, Runs.exec (step whd key block) t (List.replicate n (c, o)) =
      some (t.move c s (.returned ret)) := by
  have hpc : ∀ (s : Store K P) (p : CallPc), (t.move c s p).pc c = p := fun s p => by
    rw [move_pc, if_pos rfl]
  have htake : (block c).val.take fspSize = (block c).val :=
    List.take_of_length_le (block c).property.le
  obtain ⟨r, bd, hget⟩ : ∃ r bd, dbGet o.dbGet t.store.db (key c) = (r, bd) := ⟨_, _, rfl⟩
  simp only [Store.putNewChunk, hget] at h
  refine exec_replicate_of_step (by simp only [step, hc, hget]; rfl) ?_
  by_cases hr : r = 0
  · simp only [hr, ne_eq, not_true_eq_false, if_false, Option.some.injEq, Prod.mk.injEq] at h ⊢
    refine exec_replicate_of_step (by simp only [step, hpc, move_store, move_move]; rfl)
      ⟨0, ?_⟩
    rw [List.replicate_zero, Runs.exec, ← h.1, ← h.2]
    rfl
  · -- the key is absent : `block_write`
    simp only [ne_eq, hr, not_false_eq_true, if_true] at h ⊢
    obtain ⟨⟨s', r'⟩, hbw, hres⟩ := Option.map_eq_some_iff.1 h
    simp only [Store.blockWrite, htake] at hbw
    split_ifs at hbw with hi
    set i := t.store.cfi.getProperChunkFile.toNat with hdef
    have hcast : (i : ℤ) = t.store.cfi.getProperChunkFile := by omega
    obtain ⟨⟨cfi, off⟩, hslot, hbw⟩ := Option.map_eq_some_iff.1 hbw
    obtain ⟨⟨fcl, e⟩, hpop, hslot⟩ := Option.map_eq_some_iff.1 hslot
    refine exec_replicate_of_step (by simp only [step, hpc, move_store, hi, if_false]; rfl) ?_
    refine exec_replicate_of_step
      (by simp only [step, hpc, move_store, move_move, ← hdef, hpop, Option.map_some]; rfl) ?_
    -- both ways to a slot lead to the same call
    have hplaced : ∃ n, Runs.exec (step whd key block)
        (t.move c { t.store with cfi } (.placed i off)) (List.replicate n (c, o)) =
          some (t.move c s (.returned ret)) := by
      have hfsp : (-1 : ℤ) ≠ fspSize := by simp [fspSize]
      obtain ⟨os, w, hw⟩ : ∃ os w, t.store.os.pwrite o.pwrite (cfi.fds i) (block c).val off =
        (os, w) := ⟨_, _, rfl⟩
      obtain ⟨db, x, hx⟩ : ∃ db x, whd.run o.writeHashDb t.store.db (key c) off i = (db, x) :=
        ⟨_, _, rfl⟩
      obtain ⟨n, hn⟩ := exec_placed (hpc { t.store with cfi } (.placed i off)) o hw hx
      refine ⟨n, hn.trans ?_⟩
      simp only [hw, ← hcast, hx] at hbw
      rw [Prod.mk.injEq] at hres
      obtain ⟨rfl, rfl⟩ := hres
      by_cases hfull : w = (fspSize : ℤ)
      · rw [if_pos hfull, Prod.mk.injEq] at hbw
        rw [if_pos hfull, move_move, ← hbw.1, ← hbw.2]
        by_cases hxz : x = 0
        · simp [hxz, hfull]
        · simp [hxz, hfsp]
      · rw [if_neg hfull, Prod.mk.injEq] at hbw
        rw [if_neg hfull, move_move, ← hbw.1, ← hbw.2, if_neg hfull]
        rfl
    dsimp only at hslot
    split_ifs at hslot ⊢ with he <;> rw [Prod.mk.injEq] at hslot <;> obtain ⟨rfl, rfl⟩ := hslot
    · refine exec_replicate_of_step (by simp only [step, hpc, move_store, move_move]; rfl) ?_
      exact hplaced
    · exact hplaced

/-! ## Slots belong to keys -/

omit [DecidableEq K] in
/-- Every location with an owner at a multiple of `FSP_SIZE`, as holders of themselves. -/
def owned (owner : Location → Option K) : Location → Option Location :=
  fun l => if l.2 % 4096 = 0 then (owner l).map fun _ => l else none

omit [DecidableEq K] in
theorem owned_eq_some {owner : Location → Option K} {l m : Location} :
    owned owner l = some m ↔ m = l ∧ l.2 % 4096 = 0 ∧ (owner l).isSome := by
  cases h : owner l <;> simp [owned, h, eq_comm, and_comm]

omit [DecidableEq K] in
theorem owned_update_aligned (owner : Location → Option K) {l : Location} (hl : l.2 % 4096 = 0)
    (k : K) : owned (update owner l (some k)) = update (owned owner) l (some l) := by
  funext m
  by_cases hm : m = l
  · simp [owned, hm, hl]
  · simp [owned, hm]

omit [DecidableEq K] in
theorem owned_update_unaligned (owner : Location → Option K) {l : Location}
    (hl : l.2 % 4096 ≠ 0) (k : K) : owned (update owner l (some k)) = owned owner := by
  funext m
  by_cases hm : m = l
  · simp [owned, hm, hl]
  · simp [owned, hm]

omit [DecidableEq K] in
/-- The locations a call on the key `k` holds belong to `k`. -/
def PcOk (cfi : ChunkFileInfo) (owner : Location → Option K) (k : K) : CallPc → Prop
  | .found bd => owner bd.location = some k
  | .chosen i | .extend i => i < cfi.files
  | .placed i offset | .written i offset => owner ((i : ℤ), offset) = some k
  | _ => True

/-- The slots in use are shared out among the keys, those of calls in flight included. The
size of a chunk file need not be a multiple of `FSP_SIZE` : what lies in between is on no free
list. -/
structure Inv (key : ι → K) (owner : Location → Option K) (t : Puts ι K P) : Prop where
  sound : t.store.cfi.Sound (owned owner)
  below : ∀ l k, owner l = some k → l.2 < t.store.cfi.curSize l.1.toNat
  recorded : ∀ k bd, t.store.db k = some bd → owner bd.location = some k
  calls : ∀ c, PcOk t.store.cfi owner (key c) (t.pc c)

omit [DecidableEq K] in
theorem PcOk.mono {cfi cfi' : ChunkFileInfo} {owner owner' : Location → Option K} {k : K}
    {p : CallPc} (h : PcOk cfi owner k p) (hfiles : cfi'.files = cfi.files)
    (hext : ∀ l m, owner l = some m → owner' l = some m) : PcOk cfi' owner' k p := by
  cases p with
  | chosen i | extend i =>
    simp only [PcOk, hfiles] at h ⊢
    exact h
  | found bd => exact hext _ _ h
  | placed i offset | written i offset => exact hext _ _ h
  | start | absent | returned => trivial

omit [DecidableEq K] in
/-- One call moves; the others keep what they hold. -/
theorem Inv.move {owner owner' : Location → Option K} {t : Puts ι K P} (h : Inv key owner t)
    {c : ι} {s : Store K P} {p : CallPc} (hsound : s.cfi.Sound (owned owner'))
    (hbelow : ∀ l k, owner' l = some k → l.2 < s.cfi.curSize l.1.toNat)
    (hrecorded : ∀ k bd, s.db k = some bd → owner' bd.location = some k)
    (hfiles : s.cfi.files = t.store.cfi.files)
    (hext : ∀ l m, owner l = some m → owner' l = some m) (hp : PcOk s.cfi owner' (key c) p) :
    Inv key owner' (t.move c s p) := by
  refine ⟨hsound, hbelow, hrecorded, fun c' => ?_⟩
  rw [move_pc]
  split_ifs with hc
  · exact hc ▸ hp
  · exact (h.calls c').mono hfiles hext

omit [DecidableEq K] in
/-- A location nobody owns goes to the key of the call that takes it. -/
theorem Inv.take {owner : Location → Option K} {t : Puts ι K P} (h : Inv key owner t)
    {c : ι} {cfi : ChunkFileInfo} {i : ℕ} {offset : ℤ} (hsound : cfi.Sound (owned owner))
    (hext : ChunkFileInfo.Extends t.store.cfi cfi) (hnone : owner ((i : ℤ), offset) = none)
    (hlt : offset < cfi.curSize i)
    (hvac : offset % 4096 = 0 → cfi.Vacant (owned owner) ((i : ℤ), offset)) :
    Inv key (update owner ((i : ℤ), offset) (some (key c)))
      (t.move c { t.store with cfi } (.placed i offset)) := by
  have howner : ∀ l m, owner l = some m →
      update owner ((i : ℤ), offset) (some (key c)) l = some m := by
    intro l m hl
    rw [update_of_ne]
    · exact hl
    · rintro rfl
      simp [hnone] at hl
  refine h.move ?_ (fun l k hl => ?_) (fun k bd hk => howner _ _ (h.recorded k bd hk))
    hext.files_eq howner (update_self _ _ _)
  · by_cases hal : offset % 4096 = 0
    · rw [owned_update_aligned owner hal]
      exact hsound.hold (hvac hal) _
    · rw [owned_update_unaligned owner hal]
      exact hsound
  · by_cases hl' : l = ((i : ℤ), offset)
    · simpa [hl'] using hlt
    · have h₁ := h.below l k (by simpa [hl'] using hl)
      have h₂ := hext.curSize l.1.toNat
      change l.2 < cfi.curSize l.1.toNat
      omega

/-- A call that returns, and records at most a location of its key. -/
theorem Inv.put {owner : Location → Option K} {t : Puts ι K P} (h : Inv key owner t) {c : ι}
    {db : Db K} (hdb : db = t.store.db ∨ ∃ bd : BlockData, owner bd.location = some (key c) ∧
      db = update t.store.db (key c) (some bd)) (ret : ℤ) :
    Inv key owner (t.move c { t.store with db } (.returned ret)) := by
  refine h.move h.sound h.below (fun k bd' hk => ?_) rfl (fun _ _ hl => hl) trivial
  obtain rfl | ⟨bd, hown, rfl⟩ := hdb
  · exact h.recorded k bd' hk
  by_cases hkc : k = key c
  · subst hkc
    obtain rfl : bd = bd' := by simpa using hk
    exact hown
  · exact h.recorded k bd' (by simpa [hkc] using hk)

/-- Every step of a call keeps each slot with the key it was taken for. -/
theorem Inv.step {owner : Location → Option K} {t t' : Puts ι K P} (h : Inv key owner t)
    {e : ι × Outcome} (he : e.2.dbGet = 0) (hs : t.step whd key block e = some t') :
    ∃ owner', Inv key owner' t' := by
  obtain ⟨c, o⟩ := e
  have hpc := h.calls c
  simp only [Puts.step] at hs
  cases hc : t.pc c <;> simp only [hc] at hs hpc
  case start =>
    obtain rfl := Option.some.inj hs
    refine ⟨owner, h.move h.sound h.below h.recorded rfl (fun _ _ hl => hl) ?_⟩
    rw [he]
    cases hk : t.store.db (key c) with
    | none => simp [dbGet_none hk, dbNotFound, PcOk]
    | some bd => simpa [dbGet_some hk, PcOk] using h.recorded _ _ hk
  case found bd =>
    obtain rfl := Option.some.inj hs
    refine ⟨owner, h.put ?_ _⟩
    simp only [dbPut]
    split_ifs
    · exact Or.inl rfl
    · exact Or.inr ⟨{ bd with refCount := int32 (bd.refCount + 1) }, hpc, rfl⟩
  case absent =>
    split_ifs at hs with hi
    obtain rfl := Option.some.inj hs
    obtain ⟨i, hlt, hpi, -⟩ := ChunkFileInfo.exists_file_of_ne
      (by omega : t.store.cfi.getProperChunkFile ≠ -1)
    refine ⟨owner, h.move h.sound h.below h.recorded rfl (fun _ _ hl => hl) ?_⟩
    simpa [PcOk, hpi] using hlt
  case chosen i =>
    obtain ⟨⟨fcl, ret⟩, hpop, rfl⟩ := Option.map_eq_some_iff.1 hs
    have hpos := h.sound.freeOffsets_nonneg hpc
    rcases ChunkFileInfo.pop_cases (h.sound.lists i hpc) hpos with ⟨-, hget⟩ |
      ⟨fcl', ret', os, hget, hne, hok, hcons, hst⟩
    · obtain ⟨rfl, rfl⟩ : _ = fcl ∧ _ = ret := by simpa [hget] using hpop
      refine ⟨owner, h.move ?_ ?_ h.recorded rfl (fun _ _ hl => hl) ?_⟩
      · simpa using h.sound
      · simpa using h.below
      · simpa [PcOk] using hpc
    · obtain ⟨rfl, rfl⟩ : fcl' = fcl ∧ ret' = ret := by simpa [hget] using hpop
      obtain ⟨hsound, hvac⟩ := h.sound.pop hpc hok hcons hst
      have hnone : owner ((i : ℤ), ret' <<< (12 : ℕ)) = none := by
        have := hvac.not_held ((i : ℤ), ret' <<< (12 : ℕ))
        rw [Ne, owned_eq_some] at this
        simpa [hvac.slot.aligned] using this
      rw [if_neg hne]
      exact ⟨_, h.take hsound (ChunkFileInfo.extends_setFcl _ _ _) hnone
        (by simpa using hvac.slot.lt_size) fun _ => hvac⟩
  case extend i =>
    obtain rfl := Option.some.inj hs
    have hext := ChunkFileInfo.extends_grow t.store.cfi i
    -- whatever has an owner is below the old end
    have hnone : owner ((i : ℤ), (t.store.cfi.curSize i : ℤ)) = none := by
      by_contra hne
      obtain ⟨k, hk⟩ := Option.ne_none_iff_exists'.1 hne
      have := h.below _ _ hk
      simp at this
    exact ⟨_, h.take (h.sound.of_extends hext rfl) hext hnone (by simp)
      fun hal => (h.sound.grow hpc (by omega)).2⟩
  case placed i offset =>
    obtain rfl := Option.some.inj hs
    refine ⟨owner, h.move h.sound h.below h.recorded rfl (fun _ _ hl => hl) ?_⟩
    split_ifs
    · exact hpc
    · trivial
  case written i offset =>
    obtain rfl := Option.some.inj hs
    refine ⟨owner, h.put ?_ _⟩
    simp only [whd.spec]
    split_ifs
    · exact Or.inl rfl
    · exact Or.inr ⟨⟨i, 1, offset⟩, hpc, rfl⟩
  case returned => simp at hs

/-! ## Counting -/

variable [Fintype ι]

omit [DecidableEq ι] in
/-- The number of calls made with `k`. -/
def calls (key : ι → K) (k : K) : ℕ :=
  (Finset.univ.filter fun c => key c = k).card

omit [DecidableEq ι] in
/-- The number of calls made with `k` that have returned `0`. -/
def done (key : ι → K) (t : Puts ι K P) (k : K) : ℕ :=
  (Finset.univ.filter fun c => key c = k ∧ t.pc c = .returned 0).card

omit [DecidableEq ι] in
theorem done_le_calls (key : ι → K) (t : Puts ι K P) (k : K) : t.done key k ≤ calls key k :=
  Finset.card_le_card (Finset.monotone_filter_right _ fun _ _ h => h.1)

theorem done_move (key : ι → K) {t : Puts ι K P} {c : ι}
    (hc : ∀ ret, t.pc c ≠ .returned ret) (s : Store K P)
    (p : CallPc) (k : K) :
    (t.move c s p).done key k = t.done key k + if key c = k ∧ p = .returned 0 then 1 else 0 := by
  have hsame : ∀ c', c' ≠ c → ((t.move c s p).pc c' = .returned 0 ↔ t.pc c' = .returned 0) := by
    intro c' hne
    rw [move_pc, if_neg hne]
  split_ifs with hp
  · have hnot : c ∉ Finset.univ.filter fun c' => key c' = k ∧ t.pc c' = .returned 0 := by
      simp [hc]
    rw [done, done, ← Finset.card_insert_of_notMem hnot]
    refine congrArg Finset.card (Finset.ext fun c' => ?_)
    by_cases hne : c' = c
    · subst hne
      simp [move_pc, hp]
    · simp [hsame c' hne, hne]
  · rw [done, done, add_zero]
    refine congrArg Finset.card (Finset.ext fun c' => ?_)
    by_cases hne : c' = c
    · subst hne
      simp only [Finset.mem_filter, Finset.mem_univ, true_and, move_pc, if_true, hc, and_false,
        iff_false]
      exact hp
    · simp [hsame c' hne]

theorem done_le_move (key : ι → K) {t : Puts ι K P} {c : ι}
    (hc : ∀ ret, t.pc c ≠ .returned ret) (s : Store K P) (p : CallPc) (k : K) :
    t.done key k ≤ (t.move c s p).done key k := by
  rw [done_move key hc]
  omega

/-- What a step of call `c` does to the database : the store and the place it leads to. -/
inductive Effect (key : ι → K) (t : Puts ι K P) (c : ι) : Store K P → CallPc → Prop where
  | found {s : Store K P} {bd : BlockData} (hc : t.pc c = .start)
      (hk : t.store.db (key c) = some bd) (hdb : s.db = t.store.db) : Effect key t c s (.found bd)
  | absent {s : Store K P} (hc : t.pc c = .start) (hk : t.store.db (key c) = none)
      (hdb : s.db = t.store.db) : Effect key t c s .absent
  | count {s : Store K P} {bd bd' : BlockData} (hc : t.pc c = .found bd)
      (hbd : bd'.refCount = int32 (bd.refCount + 1))
      (hdb : s.db = update t.store.db (key c) (some bd')) : Effect key t c s (.returned 0)
  | insert {s : Store K P} {bd : BlockData} (hc : (t.pc c).InWrite) (hbd : bd.refCount = 1)
      (hdb : s.db = update t.store.db (key c) (some bd)) : Effect key t c s (.returned 0)
  | inside {s : Store K P} {p : CallPc} (hc : (t.pc c).InWrite) (hp : p.InWrite)
      (hdb : s.db = t.store.db) : Effect key t c s p
  | failed {s : Store K P} {ret : ℤ} (hc : (t.pc c).InFlight) (hret : ret ≠ 0)
      (hdb : s.db = t.store.db) : Effect key t c s (.returned ret)

omit [Fintype ι] in
theorem step_effect {t t' : Puts ι K P} {e : ι × Outcome} (he : e.2.dbGet = 0)
    (hs : t.step whd key block e = some t') :
    ∃ s p, t' = t.move e.1 s p ∧ Effect key t e.1 s p := by
  obtain ⟨c, o⟩ := e
  simp only [Puts.step] at hs
  cases hc : t.pc c <;> simp only [hc] at hs
  case start =>
    obtain rfl := Option.some.inj hs
    refine ⟨_, _, rfl, ?_⟩
    rw [he]
    cases hk : t.store.db (key c) with
    | none => simpa [dbGet_none hk, dbNotFound] using Effect.absent hc hk rfl
    | some bd => simpa [dbGet_some hk] using Effect.found hc hk rfl
  case found bd =>
    obtain rfl := Option.some.inj hs
    refine ⟨_, _, rfl, ?_⟩
    by_cases hput : o.dbPut = 0
    · simpa [dbPut, hput] using Effect.count hc rfl rfl
    · simpa [dbPut, hput] using
        Effect.failed (by rw [hc]; exact CallPc.inFlight_found bd) (by omega) rfl
  case absent =>
    split_ifs at hs
    obtain rfl := Option.some.inj hs
    exact ⟨_, _, rfl, .inside (by rw [hc]; trivial) trivial rfl⟩
  case chosen i =>
    obtain ⟨r, -, rfl⟩ := Option.map_eq_some_iff.1 hs
    exact ⟨_, _, rfl, .inside (by rw [hc]; trivial) (by split_ifs <;> trivial) rfl⟩
  case extend i =>
    obtain rfl := Option.some.inj hs
    exact ⟨_, _, rfl, .inside (by rw [hc]; trivial) trivial rfl⟩
  case placed i offset =>
    obtain rfl := Option.some.inj hs
    have hin : (t.pc c).InWrite := by rw [hc]; trivial
    refine ⟨_, _, rfl, ?_⟩
    split_ifs
    · exact .inside hin trivial rfl
    · exact .failed hin.inFlight (by omega) rfl
  case written i offset =>
    obtain rfl := Option.some.inj hs
    have hin : (t.pc c).InWrite := by rw [hc]; trivial
    refine ⟨_, _, rfl, ?_⟩
    by_cases hw : o.writeHashDb = 0
    · simpa [whd.spec, hw] using Effect.insert hin rfl rfl
    · simpa [whd.spec, hw] using Effect.failed hin.inFlight (by omega) rfl
  case returned => simp at hs

omit [DecidableEq ι] [Fintype ι] in
theorem Effect.not_returned {t : Puts ι K P} {c : ι} {s : Store K P} {p : CallPc}
    (h : Effect key t c s p) (ret : ℤ) : t.pc c ≠ .returned ret := by
  cases h with
  | found hc _ _ | absent hc _ _ | count hc _ _ => simp [hc]
  | insert hc _ _ | inside hc _ _ => exact hc.inFlight.2 ret
  | failed hc _ _ => exact hc.2 ret

omit [DecidableEq ι] [Fintype ι] in
/-- The record of any other key is left alone. -/
theorem Effect.db_of_ne {t : Puts ι K P} {c : ι} {s : Store K P} {p : CallPc}
    (h : Effect key t c s p) {k : K} (hc : key c ≠ k) : s.db k = t.store.db k := by
  cases h with
  | found _ _ hdb | absent _ _ hdb | inside _ _ hdb | failed _ _ hdb => rw [hdb]
  | count _ _ hdb | insert _ _ hdb => rw [hdb, update_of_ne (Ne.symm hc)]

/-- No count, in the database or in a call, is more than the initial one and the number of
calls with the key that have returned. -/
structure Bounded (key : ι → K) (s₀ : Store K P) (t : Puts ι K P) : Prop where
  record : ∀ k bd, t.store.db k = some bd →
    -2 ^ 31 ≤ bd.refCount ∧ bd.refCount ≤ s₀.refCount k + t.done key k
  found : ∀ c bd, t.pc c = .found bd →
    -2 ^ 31 ≤ bd.refCount ∧ bd.refCount ≤ s₀.refCount (key c) + t.done key (key c)
  absent : ∀ k, t.store.db k = none → s₀.refCount k = 0
  inWrite : ∀ c, (t.pc c).InWrite → s₀.refCount (key c) = 0

/-- Call `c` moves with records and counts that fit; the others keep what they hold. -/
theorem Bounded.move {s₀ : Store K P} {t : Puts ι K P} (h : Bounded key s₀ t) {c : ι}
    (hc : ∀ ret, t.pc c ≠ .returned ret) {s : Store K P} {p : CallPc}
    (hrecord : ∀ k bd, s.db k = some bd → -2 ^ 31 ≤ bd.refCount ∧
      bd.refCount ≤ s₀.refCount k + (t.move c s p).done key k)
    (habsent : ∀ k, s.db k = none → s₀.refCount k = 0)
    (hfound : ∀ bd, p = .found bd → -2 ^ 31 ≤ bd.refCount ∧
      bd.refCount ≤ s₀.refCount (key c) + t.done key (key c))
    (hin : p.InWrite → s₀.refCount (key c) = 0) : Bounded key s₀ (t.move c s p) := by
  refine ⟨hrecord, fun c' bd hbd => ?_, habsent, fun c' hc' => ?_⟩
  · have hmono := done_le_move key hc s p (key c')
    rw [move_pc] at hbd
    split_ifs at hbd with hce
    · subst hce
      obtain ⟨h₁, h₂⟩ := hfound bd hbd
      exact ⟨h₁, by omega⟩
    · obtain ⟨h₁, h₂⟩ := h.found c' bd hbd
      exact ⟨h₁, by omega⟩
  · rw [move_pc] at hc'
    split_ifs at hc' with hce
    · exact hce ▸ hin hc'
    · exact h.inWrite c' hc'

/-- A step that leaves the records alone. -/
theorem Bounded.keep {s₀ : Store K P} {t : Puts ι K P} (h : Bounded key s₀ t) {c : ι}
    (hc : ∀ ret, t.pc c ≠ .returned ret) {s : Store K P} {p : CallPc}
    (hdb : s.db = t.store.db)
    (hfound : ∀ bd, p = .found bd → -2 ^ 31 ≤ bd.refCount ∧
      bd.refCount ≤ s₀.refCount (key c) + t.done key (key c))
    (hin : p.InWrite → s₀.refCount (key c) = 0) : Bounded key s₀ (t.move c s p) := by
  refine h.move hc (fun k bd hk => ?_) (fun k hk => h.absent k (hdb ▸ hk)) hfound hin
  obtain ⟨h₁, h₂⟩ := h.record k bd (hdb ▸ hk)
  have hmono := done_le_move key hc s p k
  exact ⟨h₁, by omega⟩

/-- A step that returns `0` with a count that is larger by at most one. -/
theorem Bounded.put {s₀ : Store K P} {t : Puts ι K P} (h : Bounded key s₀ t) {c : ι}
    (hc : ∀ ret, t.pc c ≠ .returned ret) {s : Store K P} {bd : BlockData}
    (hdb : s.db = update t.store.db (key c) (some bd)) (hlow : -2 ^ 31 ≤ bd.refCount)
    (hle : bd.refCount ≤ s₀.refCount (key c) + t.done key (key c) + 1) :
    Bounded key s₀ (t.move c s (.returned 0)) := by
  refine h.move hc (fun k bd' hk => ?_) (fun k hk => ?_) (by simp) fun hp => hp.elim
  · rw [hdb] at hk
    by_cases hkc : k = key c
    · subst hkc
      obtain rfl : bd = bd' := by simpa using hk
      have hdone := done_move key hc s (.returned 0) (key c)
      simp only [and_self, if_true] at hdone
      exact ⟨hlow, by omega⟩
    · obtain ⟨h₁, h₂⟩ := h.record k bd' (by simpa [hkc] using hk)
      have hmono := done_le_move key hc s (.returned 0) k
      exact ⟨h₁, by omega⟩
  · rw [hdb] at hk
    by_cases hkc : k = key c
    · simp [hkc] at hk
    · exact h.absent k (by simpa [hkc] using hk)

theorem Bounded.step {s₀ : Store K P} {t t' : Puts ι K P} {e : ι × Outcome}
    (h : Bounded key s₀ t) (hmax : ∀ k, s₀.refCount k + calls key k < 2 ^ 31)
    (he : e.2.dbGet = 0) (hs : t.step whd key block e = some t') : Bounded key s₀ t' := by
  obtain ⟨s, p, rfl, heff⟩ := step_effect he hs
  have hnot := heff.not_returned
  cases heff with
  | found hc hk hdb =>
    refine h.keep hnot hdb (fun bd hbd => ?_) fun hp => hp.elim
    cases hbd
    exact h.record _ _ hk
  | absent hc hk hdb => exact h.keep hnot hdb (by simp) fun _ => h.absent _ hk
  | inside hc hp hdb =>
    refine h.keep hnot hdb (fun bd hbd => ?_) fun _ => h.inWrite _ hc
    rw [hbd] at hp
    exact hp.elim
  | failed hc hret hdb => exact h.keep hnot hdb (by simp) fun hp => hp.elim
  | count hc hbd hdb =>
    obtain ⟨h₁, h₂⟩ := h.found _ _ hc
    have hnew := done_move key hnot s (.returned 0) (key e.1)
    have hle := done_le_calls key (t.move e.1 s (.returned 0)) (key e.1)
    have hm := hmax (key e.1)
    simp only [and_self, if_true] at hnew
    rw [int32_of_range (by omega) (by omega)] at hbd
    exact h.put hnot hdb (by omega) (by omega)
  | insert hc hbd hdb =>
    have hzero := h.inWrite _ hc
    exact h.put hnot hdb (by omega) (by omega)

/-- The count a call under way has read. -/
def count : CallPc → ℤ
  | .found bd => bd.refCount
  | _ => 0

theorem count_of_inWrite {p : CallPc} (h : p.InWrite) : count p = 0 := by
  cases p <;> first | exact h.elim | rfl

omit [DecidableEq ι] in
theorem Bounded.count_le {s₀ : Store K P} {t : Puts ι K P} (h : Bounded key s₀ t) {c : ι}
    (hc : (t.pc c).InFlight) : count (t.pc c) ≤ s₀.refCount (key c) + t.done key (key c) := by
  have hin := h.inWrite c
  have hf := h.found c
  cases hp : t.pc c with
  | found bd => exact (hf bd hp).2
  | start => exact (hc.1 hp).elim
  | returned ret => exact (hc.2 ret hp).elim
  | absent | chosen i | extend i | placed i offset | written i offset =>
    have := hin (by rw [hp]; trivial)
    simp only [count]
    omega

/-! ## Calls that do not overlap -/

/-- If the step starts a call on `k`, no other call on `k` is under way. -/
def Alone (key : ι → K) (k : K) (t : Puts ι K P) (e : ι × Outcome) : Prop :=
  key e.1 = k → t.pc e.1 = .start → ∀ c, key c = k → ¬(t.pc c).InFlight

/-- The count of `k` is exact, and the one call on `k` under way knows it. -/
structure Serial (key : ι → K) (s₀ : Store K P) (k : K) (t : Puts ι K P) : Prop where
  alone : ∀ c c', key c = k → key c' = k → (t.pc c).InFlight → (t.pc c').InFlight → c = c'
  found : ∀ c bd, key c = k → t.pc c = .found bd → t.store.db k = some bd
  inWrite : ∀ c, key c = k → (t.pc c).InWrite → t.store.db k = none
  count : t.store.refCount k = s₀.refCount k + t.done key k

omit [DecidableEq ι] [DecidableEq K] [Fintype ι] in
theorem refCount_congr {s s' : Store K P} {k : K} (h : s'.db k = s.db k) :
    s'.refCount k = s.refCount k := by
  simp only [Store.refCount, h]

omit [DecidableEq K] [Fintype ι] in
theorem move_pc_of_key_ne {k : K} {c : ι} (hc : key c ≠ k) (t : Puts ι K P) (s : Store K P)
    (p : CallPc) {c' : ι} (hc' : key c' = k) : (t.move c s p).pc c' = t.pc c' := by
  rw [move_pc, if_neg]
  rintro rfl
  exact hc hc'

/-- A step of a call on another key. -/
theorem Serial.of_ne {s₀ : Store K P} {k : K} {t : Puts ι K P} (h : Serial key s₀ k t) {c : ι}
    (hc : key c ≠ k) {s : Store K P} {p : CallPc} (heff : Effect key t c s p) :
    Serial key s₀ k (t.move c s p) := by
  have hdb := heff.db_of_ne hc
  have hpc : ∀ c', key c' = k → (t.move c s p).pc c' = t.pc c' :=
    fun c' hc' => move_pc_of_key_ne hc t s p hc'
  refine ⟨fun c₁ c₂ h₁ h₂ => ?_, fun c' bd h₁ => ?_, fun c' h₁ => ?_, ?_⟩
  · rw [hpc c₁ h₁, hpc c₂ h₂]
    exact h.alone c₁ c₂ h₁ h₂
  · rw [hpc c' h₁, move_store, hdb]
    exact h.found c' bd h₁
  · rw [hpc c' h₁, move_store, hdb]
    exact h.inWrite c' h₁
  · rw [move_store, refCount_congr hdb, h.count, done_move key heff.not_returned]
    simp [hc]

/-- A step of a call on `k` after which at most this call is under way. -/
theorem Serial.of_eq {s₀ : Store K P} {t : Puts ι K P} {c : ι} {s : Store K P} {p : CallPc}
    (hothers : ∀ c', key c' = key c → c' ≠ c → ¬(t.pc c').InFlight)
    (hfound : ∀ bd, p = .found bd → s.db (key c) = some bd)
    (hin : p.InWrite → s.db (key c) = none)
    (hcount : s.refCount (key c) = s₀.refCount (key c) + (t.move c s p).done key (key c)) :
    Serial key s₀ (key c) (t.move c s p) := by
  have hc : ∀ c', key c' = key c → ((t.move c s p).pc c').InFlight → c' = c := by
    intro c' hk hfl
    by_contra hne
    rw [move_pc, if_neg hne] at hfl
    exact hothers c' hk hne hfl
  have hpc : (t.move c s p).pc c = p := by rw [move_pc, if_pos rfl]
  refine ⟨fun c₁ c₂ h₁ h₂ hf₁ hf₂ => (hc c₁ h₁ hf₁).trans (hc c₂ h₂ hf₂).symm,
    fun c' bd hk hb => ?_, fun c' hk hb => ?_, hcount⟩
  · obtain rfl := hc c' hk (by rw [hb]; exact CallPc.inFlight_found bd)
    exact hfound bd (hpc ▸ hb)
  · obtain rfl := hc c' hk hb.inFlight
    exact hin (hpc ▸ hb)

theorem Serial.step {s₀ : Store K P} {k : K} {t t' : Puts ι K P} {e : ι × Outcome}
    (h : Serial key s₀ k t) (hb : Bounded key s₀ t)
    (hmax : ∀ k, s₀.refCount k + calls key k < 2 ^ 31) (he : e.2.dbGet = 0)
    (halone : Alone key k t e) (hs : t.step whd key block e = some t') :
    Serial key s₀ k t' := by
  obtain ⟨s, p, rfl, heff⟩ := step_effect he hs
  obtain ⟨c, o⟩ := e
  by_cases hk : key c = k
  swap
  · exact h.of_ne hk heff
  subst hk
  have hdone := done_move key heff.not_returned s p (key c)
  -- while a call on the key is under way there is no other
  have hothers : (t.pc c).InFlight → ∀ c', key c' = key c → c' ≠ c → ¬(t.pc c').InFlight :=
    fun hc c' hk' hne hc' => hne (h.alone c' c hk' rfl hc' hc)
  have hsame : s.db = t.store.db → s.refCount (key c) = t.store.refCount (key c) :=
    fun hdb => refCount_congr (congrFun hdb _)
  have hzero : t.store.db (key c) = none → s₀.refCount (key c) + t.done key (key c) = 0 := by
    intro hnone
    rw [← h.count]
    simp [Store.refCount, hnone]
  cases heff with
  | found hc hk hdb =>
    refine Serial.of_eq (fun c' hk' _ => halone rfl hc c' hk') ?_ (fun hp => hp.elim) ?_
    · rintro _ ⟨⟩
      rw [hdb, hk]
    · rw [hsame hdb, h.count, hdone]
      simp
  | absent hc hk hdb =>
    refine Serial.of_eq (fun c' hk' _ => halone rfl hc c' hk') (by simp)
      (fun _ => by rw [hdb, hk]) ?_
    rw [hsame hdb, h.count, hdone]
    simp
  | inside hc hp hdb =>
    refine Serial.of_eq (hothers hc.inFlight) ?_ (fun _ => ?_) ?_
    · rintro bd rfl
      exact hp.elim
    · rw [hdb]
      exact h.inWrite c rfl hc
    · rw [hsame hdb, h.count, hdone]
      rw [if_neg]
      · simp
      · rintro ⟨-, rfl⟩
        exact hp.elim
  | failed hc hret hdb =>
    refine Serial.of_eq (hothers hc) (by simp) (fun hp => hp.elim) ?_
    rw [hsame hdb, h.count, hdone]
    simp [hret]
  | count hc hbd hdb =>
    rename_i bd bd'
    refine Serial.of_eq (hothers (by rw [hc]; exact CallPc.inFlight_found bd)) (by simp)
      (fun hp => hp.elim) ?_
    have hrec := h.found c bd rfl hc
    have hcount := h.count
    have hrange := hb.found c bd hc
    have hle := done_le_calls key (t.move c s (.returned 0)) (key c)
    have hm := hmax (key c)
    simp only [and_self, if_true] at hdone
    rw [int32_of_range (by omega) (by omega)] at hbd
    simp only [Store.refCount, hrec, Option.map_some, Option.getD_some] at hcount
    simp only [Store.refCount, hdb, update_self, Option.map_some, Option.getD_some, hbd] at hcount ⊢
    omega
  | insert hc hbd hdb =>
    refine Serial.of_eq (hothers hc.inFlight) (by simp) (fun hp => hp.elim) ?_
    have hz := hzero (h.inWrite c rfl hc)
    simp only [and_self, if_true] at hdone
    simp only [Store.refCount, hdb, update_self, Option.map_some, Option.getD_some, hbd] at hz ⊢
    omega

/-! ## Calls that overlap -/

/-- A reference to `k` is lost for good, whichever of the calls under way ends last. -/
structure Lossy (key : ι → K) (s₀ : Store K P) (k : K) (t : Puts ι K P) : Prop where
  last : ∀ c, key c = k → (t.pc c).InFlight →
    (∀ c', key c' = k → (t.pc c').InFlight → c' = c) →
    count (t.pc c) < s₀.refCount k + t.done key k
  quiet : (∀ c, key c = k → ¬(t.pc c).InFlight) →
    t.store.refCount k < s₀.refCount k + t.done key k

/-- No call has failed. -/
def Unfailed (t : Puts ι K P) : Prop :=
  ∀ c ret, t.pc c = .returned ret → ret = 0

omit [DecidableEq K] [Fintype ι] in
theorem unfailed_of_move {t : Puts ι K P} {c : ι} (hc : ∀ ret, t.pc c ≠ .returned ret)
    {s : Store K P} {p : CallPc} (h : Unfailed (t.move c s p)) : Unfailed t := by
  intro c' ret hret
  refine h c' ret ?_
  rw [move_pc, if_neg]
  · exact hret
  · rintro rfl
    exact hc ret hret

/-- A call on `k` that starts while another is under way loses a reference. -/
theorem lossy_of_not_alone {s₀ : Store K P} {k : K} {t t' : Puts ι K P} {e : ι × Outcome}
    (he : e.2.dbGet = 0) (hover : ¬Alone key k t e) (hs : t.step whd key block e = some t') :
    Lossy key s₀ k t' := by
  obtain ⟨s, p, rfl, heff⟩ := step_effect he hs
  simp only [Alone, not_forall, not_not] at hover
  obtain ⟨hk, hstart, c', hk', hc'⟩ := hover
  have hne : c' ≠ e.1 := by
    rintro rfl
    exact hc'.1 hstart
  have hfl : p.InFlight := by
    cases heff with
    | found _ _ _ => exact CallPc.inFlight_found _
    | absent _ _ _ => exact CallPc.InWrite.inFlight trivial
    | count hc _ _ => simp [hstart] at hc
    | insert hc _ _ | inside hc _ _ => exact (hc.inFlight.1 hstart).elim
    | failed hc _ _ => exact (hc.1 hstart).elim
  -- two calls are under way now
  have h₁ : ((t.move e.1 s p).pc e.1).InFlight := by
    rw [move_pc, if_pos rfl]
    exact hfl
  have h₂ : ((t.move e.1 s p).pc c').InFlight := by
    rw [move_pc, if_neg hne]
    exact hc'
  exact ⟨fun c _ _ hlast => (hne ((hlast c' hk' h₂).trans (hlast e.1 hk h₁).symm)).elim,
    fun hquiet => (hquiet e.1 hk h₁).elim⟩

/-- A step of a call on `k` that stays under way with the count it has read. -/
theorem Lossy.of_inFlight {s₀ : Store K P} {t : Puts ι K P} {c : ι} {s : Store K P} {p : CallPc}
    (hp : p.InFlight) (hdone : (t.move c s p).done key (key c) = t.done key (key c))
    (hlast : (∀ c', key c' = key c → c' ≠ c → ¬(t.pc c').InFlight) →
      count p < s₀.refCount (key c) + t.done key (key c)) :
    Lossy key s₀ (key c) (t.move c s p) := by
  have hpc : (t.move c s p).pc c = p := by rw [move_pc, if_pos rfl]
  have hfl : ((t.move c s p).pc c).InFlight := by rwa [hpc]
  refine ⟨fun c₁ _ _ honly => ?_, fun hquiet => (hquiet c rfl hfl).elim⟩
  obtain rfl := honly c rfl hfl
  rw [hpc, hdone]
  refine hlast fun c' hk' hne hc' => hne (honly c' hk' ?_)
  rwa [move_pc, if_neg hne]

/-- The end of a call on `k` that returns `0`. -/
theorem Lossy.of_returned {s₀ : Store K P} {t : Puts ι K P} {c : ι} {s : Store K P}
    (hb : Bounded key s₀ t) (hc : (t.pc c).InFlight)
    (hdone : (t.move c s (.returned 0)).done key (key c) = t.done key (key c) + 1)
    (hlast : (∀ c', key c' = key c → c' ≠ c → ¬(t.pc c').InFlight) →
      s.refCount (key c) < s₀.refCount (key c) + t.done key (key c) + 1) :
    Lossy key s₀ (key c) (t.move c s (.returned 0)) := by
  have hothers : ∀ c', c' ≠ c → (t.move c s (.returned 0)).pc c' = t.pc c' := by
    intro c' hne
    rw [move_pc, if_neg hne]
  refine ⟨fun c₁ hk₁ hc₁ _ => ?_, fun hquiet => ?_⟩
  · by_cases hne : c₁ = c
    · subst hne
      rw [move_pc, if_pos rfl] at hc₁
      exact (hc₁.2 0 rfl).elim
    · -- what it has read is at most the count before this step
      rw [hothers c₁ hne] at hc₁ ⊢
      have := hb.count_le hc₁
      rw [hk₁] at this
      omega
  · have := hlast fun c' hk' hne hc' => hquiet c' hk' (by rwa [hothers c' hne])
    simp only [move_store]
    omega

/-- A step of a call on another key. -/
theorem Lossy.of_ne {s₀ : Store K P} {k : K} {t : Puts ι K P} (h : Lossy key s₀ k t) {c : ι}
    (hc : key c ≠ k) {s : Store K P} {p : CallPc} (heff : Effect key t c s p) :
    Lossy key s₀ k (t.move c s p) := by
  have hpc : ∀ c', key c' = k → (t.move c s p).pc c' = t.pc c' :=
    fun c' hc' => move_pc_of_key_ne hc t s p hc'
  have hdone := done_move key heff.not_returned s p k
  simp only [hc, false_and, if_false, add_zero] at hdone
  refine ⟨fun c' hc' hfl honly => ?_, fun hquiet => ?_⟩
  · rw [hpc c' hc'] at hfl ⊢
    rw [hdone]
    exact h.last c' hc' hfl fun c'' hc'' hfl' => honly c'' hc'' (by rwa [hpc c'' hc''])
  · rw [hdone, move_store, refCount_congr (heff.db_of_ne hc)]
    exact h.quiet fun c' hc' hfl => hquiet c' hc' (by rwa [hpc c' hc'])

theorem Lossy.step {s₀ : Store K P} {k : K} {t t' : Puts ι K P} {e : ι × Outcome}
    (h : Lossy key s₀ k t) (hb : Bounded key s₀ t)
    (hmax : ∀ k, s₀.refCount k + calls key k < 2 ^ 31) (he : e.2.dbGet = 0)
    (hs : t.step whd key block e = some t') (hu : Unfailed t') : Lossy key s₀ k t' := by
  obtain ⟨s, p, rfl, heff⟩ := step_effect he hs
  obtain ⟨c, o⟩ := e
  by_cases hk : key c = k
  swap
  · exact h.of_ne hk heff
  subst hk
  have hdone := done_move key heff.not_returned s p (key c)
  -- the last call under way
  have hlast : (t.pc c).InFlight → (∀ c', key c' = key c → c' ≠ c → ¬(t.pc c').InFlight) →
      count (t.pc c) < s₀.refCount (key c) + t.done key (key c) :=
    fun hc hothers => h.last c rfl hc fun c' hk' hc' =>
      by_contra fun hne => hothers c' hk' hne hc'
  -- no call under way
  have hquiet : t.pc c = .start → (∀ c', key c' = key c → c' ≠ c → ¬(t.pc c').InFlight) →
      t.store.refCount (key c) < s₀.refCount (key c) + t.done key (key c) := by
    refine fun hc hothers => h.quiet fun c' hk' hc' => ?_
    by_cases hne : c' = c
    · subst hne
      exact hc'.1 hc
    · exact hothers c' hk' hne hc'
  cases heff with
  | found hc hk hdb =>
    refine .of_inFlight (CallPc.inFlight_found _) (by simpa using hdone) fun hothers => ?_
    simpa [Store.refCount, hk, count] using hquiet hc hothers
  | absent hc hk hdb =>
    refine .of_inFlight (CallPc.InWrite.inFlight trivial) (by simpa using hdone) fun hothers => ?_
    simpa [Store.refCount, hk, count] using hquiet hc hothers
  | inside hc hp hdb =>
    have hne : p ≠ .returned 0 := by
      rintro rfl
      exact hp.elim
    refine .of_inFlight hp.inFlight (by simpa [hne] using hdone) fun hothers => ?_
    rw [count_of_inWrite hp, ← count_of_inWrite hc]
    exact hlast hc.inFlight hothers
  | failed hc hret hdb => exact (hret (hu c _ (by rw [move_pc, if_pos rfl]))).elim
  | count hc hbd hdb =>
    have hfl : (t.pc c).InFlight := by
      rw [hc]
      exact CallPc.inFlight_found _
    refine .of_returned hb hfl (by simpa using hdone) fun hothers => ?_
    have hread := hlast hfl hothers
    have hrange := hb.found c _ hc
    have hle := done_le_calls key t (key c)
    have hm := hmax (key c)
    rw [hc] at hread
    simp only [count] at hread
    rw [int32_of_range (by omega) (by omega)] at hbd
    simp only [Store.refCount, hdb, update_self, Option.map_some, Option.getD_some, hbd] at hread ⊢
    omega
  | insert hc hbd hdb =>
    refine .of_returned hb hc.inFlight (by simpa using hdone) fun hothers => ?_
    have hread := hlast hc.inFlight hothers
    rw [count_of_inWrite hc] at hread
    simp only [Store.refCount, hdb, update_self, Option.map_some, Option.getD_some, hbd] at hread ⊢
    omega

/-! ## Every interleaving -/

/-- No two keys present have their chunk at one location. -/
def Unaliased (s : Store K P) : Prop :=
  ∀ k k' bd bd', s.db k = some bd → s.db k' = some bd' → bd.location = bd'.location → k = k'

omit [DecidableEq ι] [DecidableEq K] [Fintype ι] in
theorem Inv.unaliased {owner : Location → Option K} {t : Puts ι K P} (h : Inv key owner t) :
    Unaliased t.store := by
  intro k k' bd bd' hk hk' hloc
  have h₁ := h.recorded k bd hk
  have h₂ := h.recorded k' bd' hk'
  rw [hloc, h₂] at h₁
  exact (Option.some.inj h₁).symm

open Classical in
omit [DecidableEq ι] [DecidableEq K] [Fintype ι] in
/-- In a well-formed store each location recorded belongs to its key. -/
theorem inv_init {s₀ : Store K P} (key : ι → K) (hwf : s₀.WellFormed) :
    ∃ owner, Inv key owner (init s₀) := by
  let owner : Location → Option K := fun l =>
    if h : ∃ k, s₀.db.loc k = some l then some h.choose else none
  have howner : ∀ l k, owner l = some k ↔ s₀.db.loc k = some l := by
    intro l k
    by_cases h : ∃ k, s₀.db.loc k = some l
    · have hk := h.choose_spec
      simp only [owner, dif_pos h, Option.some.injEq]
      refine ⟨?_, fun hk' => hwf.sound.inj _ _ l hk hk'⟩
      rintro rfl
      exact hk
    · simp only [owner, dif_neg h]
      exact ⟨fun hn => (Option.some_ne_none _ hn.symm).elim, fun hk => (h ⟨k, hk⟩).elim⟩
  refine ⟨owner, hwf.sound.of_held (fun l m hm => ?_) (fun l l' m hl hl' => ?_),
    fun l k hl => (hwf.sound.held k l ((howner l k).1 hl)).lt_size, fun k bd hk => ?_,
    fun _ => trivial⟩
  · obtain ⟨rfl, -, hsome⟩ := owned_eq_some.1 hm
    obtain ⟨k, hk⟩ := Option.isSome_iff_exists.1 hsome
    exact ⟨k, (howner _ k).1 hk⟩
  · exact (owned_eq_some.1 hl).1.symm.trans (owned_eq_some.1 hl').1
  · exact (howner _ k).2 (Db.loc_eq_some.2 ⟨bd, hk, rfl⟩)

omit [DecidableEq ι] in
theorem bounded_init {s₀ : Store K P} (key : ι → K) (hmin : ∀ k, -2 ^ 31 ≤ s₀.refCount k) :
    Bounded key s₀ (init s₀) := by
  refine ⟨fun k bd hk => ?_, by simp [init], fun k hk => ?_, fun c hc => hc.elim⟩
  · have hk' : s₀.db k = some bd := hk
    have := hmin k
    simp only [Store.refCount, hk', Option.map_some, Option.getD_some] at this ⊢
    omega
  · have hk' : s₀.db k = none := hk
    simp [Store.refCount, hk']

/-- Whatever the interleaving, no two keys share a location; and if all calls return `0`, the
count of a key grows by at most the number of its calls, and by this number if and only if no
call on it starts while another is under way. -/
theorem concurrent_puts (whd : WriteHashDb K) (key : ι → K) (block : ι → Block) {s₀ : Store K P}
    (hwf : s₀.WellFormed) (hmin : ∀ k, -2 ^ 31 ≤ s₀.refCount k)
    (hmax : ∀ k, s₀.refCount k + calls key k < 2 ^ 31) {evs : List (ι × Outcome)}
    (hget : ∀ e ∈ evs, e.2.dbGet = 0) {t : Puts ι K P}
    (hrun : Runs.exec (step whd key block) (init s₀) evs = some t) :
    Unaliased t.store ∧
    ((∀ c, t.pc c = .returned 0) → ∀ k,
      t.store.refCount k ≤ s₀.refCount k + calls key k ∧
      (t.store.refCount k = s₀.refCount k + calls key k ↔
        Runs.Each (step whd key block) (Alone key k) (init s₀) evs)) := by
  have hE : Runs.Each (step whd key block) (fun _ e => e.2.dbGet = 0) (init s₀) evs :=
    Runs.Each.of_forall_mem hget
  have hb₀ := bounded_init key hmin
  have hbstep : ∀ t e t', Bounded key s₀ t → e.2.dbGet = 0 →
      step whd key block t e = some t' → Bounded key s₀ t' :=
    fun _ _ _ h he hs => h.step hmax he hs
  obtain ⟨owner, hinv⟩ := hE.exec_invariant (I := fun t => ∃ owner, Inv key owner t)
    (fun _ _ _ ⟨_, h⟩ he hs => h.step he hs) (inv_init key hwf) hrun
  have hb := hE.exec_invariant hbstep hb₀ hrun
  refine ⟨hinv.unaliased, fun hret k => ?_⟩
  have hdone : t.done key k = calls key k := by simp [done, calls, hret]
  refine ⟨?_, fun hexact => ?_, fun halone => ?_⟩
  · cases hk : t.store.db k with
    | none =>
      have := hb.absent k hk
      simp only [Store.refCount, hk, Option.map_none, Option.getD_none] at this ⊢
      omega
    | some bd =>
      have := (hb.record k bd hk).2
      simp only [Store.refCount, hk, Option.map_some, Option.getD_some] at this ⊢
      omega
  · by_contra hover
    have hlossy := Runs.exec_of_not_each (B := fun t => Unfailed t → Lossy key s₀ k t) hbstep
      (fun _ _ _ _ he hc hs _ => lossy_of_not_alone he hc hs)
      (fun t e t' hb h he hs hu => by
        obtain ⟨s, p, rfl, heff⟩ := step_effect he hs
        exact (h (unfailed_of_move heff.not_returned hu)).step hb hmax he hs hu)
      hb₀ hE hover hrun (fun c ret hc => by simpa [hret c, eq_comm] using hc)
    have := hlossy.quiet fun c _ hc => hc.2 0 (hret c)
    omega
  · have hs₀ : Serial key s₀ k (init s₀ : Puts ι K P) :=
      ⟨fun c _ _ _ hc => (hc.1 rfl).elim, by simp [init], fun c _ hc => hc.elim,
        by simp [init, done]⟩
    have hserial := (hE.and halone).exec_invariant
      (I := fun t => Bounded key s₀ t ∧ Serial key s₀ k t)
      (fun _ _ _ h he hs => ⟨h.1.step hmax he.1 hs, h.2.step h.1 hmax he.1 he.2 hs⟩)
      ⟨hb₀, hs₀⟩ hrun
    rw [hserial.2.count, hdone]

/-- Two calls on one key, the second after the first. -/
def inTurn : List (Bool × Outcome) :=
  (List.replicate 6 false ++ List.replicate 2 true).map fun c => (c, {})

/-- Two calls on one key, both of which find it absent. -/
def atOnce : List (Bool × Outcome) :=
  (false :: true :: List.replicate 5 false ++ List.replicate 5 true).map fun c => (c, {})

/-- Two calls in turn : both references are counted, so neither overlaps the other. -/
theorem concurrent_puts_inTurn :
    ∃ t, Runs.exec (step (.insert ℕ) (fun _ => 7) (fun _ => Store.fillBlock 1))
        (init (Store.empty 1 : Store ℕ ℕ)) inTurn = some t ∧
      Unaliased t.store ∧ t.store.refCount 7 = 2 ∧
      Runs.Each (step (.insert ℕ) (fun _ => 7) (fun _ => Store.fillBlock 1)) (Alone (fun _ => 7) 7)
        (init (Store.empty 1 : Store ℕ ℕ)) inTurn := by
  have hrun : (Runs.exec (step (.insert ℕ) (fun _ => 7) (fun _ => Store.fillBlock 1))
      (init (Store.empty 1 : Store ℕ ℕ)) inTurn).map
        (fun t => (t.store.refCount 7, t.pc false, t.pc true)) =
          some (2, .returned 0, .returned 0) := by
    decide +kernel
  obtain ⟨t, ht, heq⟩ := Option.map_eq_some_iff.1 hrun
  simp only [Prod.mk.injEq] at heq
  obtain ⟨hcount, hfalse, htrue⟩ := heq
  have hcalls : ∀ k, calls (fun _ : Bool => 7) k ≤ 2 := fun k => Finset.card_filter_le _ _
  have hzero : ∀ k, (Store.empty 1 : Store ℕ ℕ).refCount k = 0 := fun _ => rfl
  obtain ⟨hun, hall⟩ := concurrent_puts (.insert ℕ) (fun _ => 7) (fun _ => Store.fillBlock 1)
    (Store.wellFormed_empty 1) (fun k => by simp [hzero])
    (fun k => by have := hcalls k; rw [hzero]; omega)
    (by simp [inTurn]) ht
  exact ⟨t, ht, hun, hcount, (hall (Bool.forall_bool.2 ⟨hfalse, htrue⟩) 7).2.1 hcount⟩

/-- Two calls at once on an absent key : both return `0`, and one reference is lost. -/
theorem concurrent_puts_counterexample :
    (Store.empty 1 : Store ℕ ℕ).WellFormed ∧
    (Runs.exec (step (.insert ℕ) (fun _ => 7) (fun _ => Store.fillBlock 1))
      (init (Store.empty 1 : Store ℕ ℕ)) atOnce).map
        (fun t => (t.store.refCount 7, t.pc false, t.pc true)) =
          some (1, .returned 0, .returned 0) ∧
    (1 : ℤ) ≠ (Store.empty 1 : Store ℕ ℕ).refCount 7 + calls (fun _ : Bool => 7) 7 :=
  ⟨Store.wellFormed_empty 1, by decide +kernel, by decide⟩

end Puts

end Agilefs
