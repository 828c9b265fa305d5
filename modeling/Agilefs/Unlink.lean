import Agilefs.LedgerRuns
import Agilefs.Truncation

/-!
# Removing a name

`fuse_unlink` truncates the file the path leads to, through symbolic links and whatever other
names the file has, and removes the name afterwards. The truncation stays when the name cannot
be removed.

`unlink_nameOnly_iff` : nothing but the name is lost if and only if the path leads to no file, or
to an empty one, or is the only name of a file whose blocks all have entries, and the name is
removed. For a block without an entry the key read before it is deleted once more, and that is
a loss to another file only if it has this key (`unlink_keepsReachable_iff`).
-/

namespace Posix.Os

variable {P : Type*}

/-- Some path leads to the inode. -/
def Reachable (os : Os P) (i : ℕ) : Prop := ∃ q, os.lookup q = some i

/-- `p` is the one name of the inode. -/
def OnlyName (os : Os P) (p : P) (i : ℕ) : Prop := ∀ q, os.names q = some (.file i) ↔ q = p

/-- Symbolic links lead to a name. -/
theorem exists_name_of_resolve {os : Os P} {i : ℕ} : ∀ {k : ℕ} {p : P},
    os.resolve k p = some (.file i) → ∃ q, os.names q = some (.file i)
  | 0, p, h => by simp [resolve] at h
  | k + 1, p, h => by
    unfold resolve at h
    split at h
    · exact exists_name_of_resolve h
    · exact ⟨p, h⟩

theorem reachable_iff {os : Os P} {i : ℕ} : os.Reachable i ↔ ∃ q, os.names q = some (.file i) := by
  constructor
  · rintro ⟨p, hp⟩
    exact exists_name_of_resolve (lookup_eq_some.1 hp)
  · rintro ⟨q, hq⟩
    exact ⟨q, lookup_file hq⟩

variable [DecidableEq P]

/-- `unlink`, which the file system may refuse. -/
def unlinkIf (os : Os P) (allowed : Bool) (p : P) : Option (Os P) :=
  if allowed then os.unlink p else none

/-- A path that leads to a file is a name `unlink` removes. -/
theorem unlink_of_lookup {os : Os P} {p : P} {i : ℕ} (h : os.lookup p = some i) :
    os.unlink p = some { os with names := Function.update os.names p none } := by
  cases hp : os.names p with
  | none => simp [lookup, resolve, hp] at h
  | some x =>
    cases x with
    | dir => simp [lookup, resolve, hp] at h
    | file j => simp [unlink, hp]
    | symlink q => simp [unlink, hp]

theorem unlink_eq_some {os os' : Os P} {p : P} (h : os.unlink p = some os') :
    os' = { os with names := Function.update os.names p none } := by
  unfold unlink at h
  split at h
  · simp at h
  · exact (Option.some.inj h).symm
  · simp at h

/-- Without the name `p` the files are reachable that have another name. -/
theorem reachable_remove {os os' : Os P} {p : P}
    (hnames : os'.names = Function.update os.names p none) {j : ℕ} :
    os'.Reachable j ↔ os.Reachable j ∧ ¬os.OnlyName p j := by
  have hname : ∀ q, os'.names q = some (.file j) ↔ q ≠ p ∧ os.names q = some (.file j) := by
    intro q
    by_cases hq : q = p <;> simp [hnames, hq]
  rw [reachable_iff, reachable_iff]
  simp only [hname]
  constructor
  · rintro ⟨q, hqp, hq⟩
    exact ⟨⟨q, hq⟩, fun honly => hqp ((honly q).1 hq)⟩
  · rintro ⟨⟨q, hq⟩, honly⟩
    by_contra hnone
    push Not at hnone
    obtain rfl : q = p := not_not.1 fun hqp => hnone q hqp hq
    refine honly fun r => ⟨fun hr => not_not.1 fun hrq => hnone r hrq hr, ?_⟩
    rintro rfl
    exact hq

/-- Without the only name of `i` the other files are reachable. -/
theorem reachable_remove_only {os os' : Os P} {p : P} {i : ℕ}
    (hnames : os'.names = Function.update os.names p none) (honly : os.OnlyName p i) {j : ℕ} :
    os'.Reachable j ↔ os.Reachable j ∧ j ≠ i := by
  rw [reachable_remove hnames]
  refine and_congr_right fun _ => not_congr ⟨fun hj => ?_, ?_⟩
  · simpa using ((hj p).2 rfl).symm.trans ((honly p).2 rfl)
  · rintro rfl
    exact honly

end Posix.Os

namespace Agilefs

open CInt Posix Function ByteFile

variable {B P : Type*}

/-! ## The references of a metafile -/

/-- The keys of the first `n` blocks, without those that have no entry. -/
def keysBelow (f : ByteFile) (n : ℕ) : List Key :=
  ((List.range n).filter fun b => decide (HasEntry f b)).map (entryKey f)

theorem entryCount_eq (f : ByteFile) (k : Key) : ∀ n, entryCount f n k = (keysBelow f n).count k
  | 0 => rfl
  | n + 1 => by
    have hkey : HasEntry f n → (entryBytes f n = k.val ↔ (entryKey f n).val = k.val) := fun h => by
      rw [h.entryKey_val]
    have hnone : entryBytes f n = k.val → HasEntry f n := fun h => by
      rw [HasEntry, h, k.property]
    rw [entryCount_succ, entryCount_eq f k n, keysBelow, keysBelow, List.range_succ,
      List.filter_append, List.map_append, List.count_append]
    by_cases hentry : HasEntry f n
    · simp [hentry, hkey hentry, List.count_singleton]
    · simp [hentry, mt hnone hentry]

/-- Of `n` deletes none is more than the first `n` blocks refer to if and only if all of these
have entries. -/
theorem count_le_entryCount_iff {f : ByteFile} {key : ℕ → Key}
    (hkey : ∀ b, HasEntry f b → key b = entryKey f b) (n : ℕ) :
    (∀ k, ((List.range n).map key).count k ≤ entryCount f n k) ↔ ∀ b < n, HasEntry f b := by
  simp only [entryCount_eq]
  constructor
  · intro hle b hb
    have hsub := (List.subperm_ext_iff.2 fun k _ => hle k).length_le
    rw [keysBelow, List.length_map, List.length_map, List.length_range] at hsub
    have hall := List.length_filter_eq_length_iff.1
      (le_antisymm (List.length_filter_le _ _) (by rwa [List.length_range]))
    exact of_decide_eq_true (hall b (List.mem_range.2 hb))
  · intro hall k
    have hfilter : (List.range n).filter (fun b => decide (HasEntry f b)) = List.range n :=
      List.filter_eq_self.2 fun b hb => decide_eq_true (hall b (List.mem_range.1 hb))
    rw [keysBelow, hfilter]
    refine le_of_eq (congrArg (List.count k) (List.map_congr_left fun b hb => ?_))
    exact hkey b (hall b (List.mem_range.1 hb))

/-- The keys that a truncation to nothing deletes. -/
def clears (f : ByteFile) : List Key :=
  (List.range (blocks (headerSize f))).map fun b => keyLeft f 0 (b + 1)

/-- How often the file with the metafile `f` refers to `k`. -/
def uses (f : ByteFile) (k : Key) : ℕ := entryCount f (blocks (headerSize f)) k

theorem HasEntry.keyLeft_zero {f : ByteFile} {b : ℕ} (h : HasEntry f b) :
    keyLeft f 0 (b + 1) = entryKey f b := by
  have hb : HasEntry f (0 + b) := by rwa [Nat.zero_add]
  rw [hb.keyLeft_succ, Nat.zero_add]

/-- No key is deleted more often than the file refers to it if and only if all its blocks have
entries. -/
theorem count_clears_le_iff (f : ByteFile) :
    (∀ k, (clears f).count k ≤ uses f k) ↔ ∀ b < blocks (headerSize f), HasEntry f b :=
  count_le_entryCount_iff (fun _ hb => hb.keyLeft_zero) _

/-- The size and the entries are the same. -/
structure SameMetafile (f f' : ByteFile) : Prop where
  size : headerSize f' = headerSize f
  entries : ∀ b, entryBytes f' b = entryBytes f b

theorem SameMetafile.refl (f : ByteFile) : SameMetafile f f := ⟨rfl, fun _ => rfl⟩

theorem SameMetafile.uses_eq {f f' : ByteFile} (h : SameMetafile f f') (k : Key) :
    uses f' k = uses f k := by
  rw [uses, uses, h.size]
  exact entryCount_congr (fun b _ => h.entries b) k

/-- The size `0` is written over the header. -/
theorem sameMetafile_clear_iff (f : ByteFile) :
    SameMetafile f (f.pwrite (offBytes 0) 0) ↔ headerSize f = 0 := by
  have hzero := headerSize_writeHeader f (x := 0) (by decide) (by decide)
  constructor
  · intro h
    rw [← h.size, hzero]
  · exact fun h => ⟨hzero.trans h.symm, entryBytes_writeHeader f 0⟩

namespace Client

/-! ## The request -/

section Request

variable [DecidableEq P]

/-- What `fuse_unlink` does after the truncation. -/
def removeName (c : Client B P) (allowed : Bool) (p : P) : Client B P × Option ℤ :=
  match c.os.unlinkIf allowed p with
  | none => (c, none)
  | some os => ({ c with os }, some 0)

/-- `fuse_unlink`, with an `unlink` that may be refused. -/
def fuseUnlinkIf (st : BlockStore B) (c : Client B P) (io : Io) (allowed : Bool) (p : P) :
    Option (Client B P × Option ℤ) :=
  (fuseTruncate st c io p 0).map fun (c, _) => c.removeName allowed p

theorem fuseUnlinkIf_allowed (st : BlockStore B) (c : Client B P) (io : Io) (p : P) :
    c.fuseUnlinkIf st io true p = c.fuseUnlink st io p := rfl

end Request

/-- Nothing is changed. -/
structure Untouched (c c' : Client B P) : Prop where
  files : ∀ j, SameMetafile (c.os.inodes j) (c'.os.inodes j)
  store : c'.store = c.store

open Classical in
/-- How often the files `J` refer to `k`, as far as they are reachable. -/
noncomputable def usesOf (c : Client B P) (J : Finset ℕ) (k : Key) : ℕ :=
  ∑ j ∈ J, if c.os.Reachable j then uses (c.os.inodes j) k else 0

/-- The reachable files are as they were, and the deletes take away no reference of theirs :
the references deleted and those still there are no more than there were. -/
structure OthersKept (J : Finset ℕ) (c c' : Client (B × List StoreCall) P) : Prop where
  files : ∀ j, c'.os.Reachable j → SameMetafile (c.os.inodes j) (c'.os.inodes j)
  references : ∀ k, (dels c'.store.2).count k + c'.usesOf J k ≤
    (dels c.store.2).count k + c.usesOf J k

/-- Of the files `J` : after an error nothing is changed, after success the reachable files are
kept. -/
def NameOnly (J : Finset ℕ) (c c' : Client (B × List StoreCall) P) : Option ℤ → Prop
  | none => Untouched c c'
  | some _ => OthersKept J c c'

/-- The reachable files are as they were, and the deletes take away no reference to a key that one
of them has. Other keys may be deleted more often. -/
structure ReachableKept (J : Finset ℕ) (c c' : Client (B × List StoreCall) P) : Prop where
  files : ∀ j, c'.os.Reachable j → SameMetafile (c.os.inodes j) (c'.os.inodes j)
  references : ∀ j, c'.os.Reachable j → ∀ k, 0 < uses (c'.os.inodes j) k →
    (dels c'.store.2).count k + c'.usesOf J k ≤ (dels c.store.2).count k + c.usesOf J k

/-- After an error nothing is changed, after success the reachable files keep their sizes, their
entries and their references. -/
def KeepsReachable (J : Finset ℕ) (c c' : Client (B × List StoreCall) P) : Option ℤ → Prop
  | none => Untouched c c'
  | some _ => ReachableKept J c c'

theorem NameOnly.keepsReachable {J : Finset ℕ} {c c' : Client (B × List StoreCall) P}
    {ret : Option ℤ} (h : NameOnly J c c' ret) : KeepsReachable J c c' ret := by
  cases ret with
  | none => exact h
  | some _ => exact ⟨h.files, fun _ _ k _ => h.references k⟩

/-- Truncation to nothing through a path. -/
theorem fuseTruncate_clear {st : BlockStore B} (hdel : ∀ b k, (st.delChunk b k).isSome)
    {c : Client (B × List StoreCall) P} {p : P} {i : ℕ} (h : c.os.lookup p = some i)
    (hhead : Headed (c.os.inodes i)) :
    ∃ c' : Client (B × List StoreCall) P,
      c.fuseTruncate st.recorded {} p 0 = some (c', some 0) ∧
      c'.os.names = c.os.names ∧
      c'.os.inodes = update c.os.inodes i ((c.os.inodes i).pwrite (offBytes 0) 0) ∧
      dels c'.store.2 = dels c.store.2 ++ clears (c.os.inodes i) ∧
      (headerSize (c.os.inodes i) = 0 → c'.store = c.store) := by
  obtain ⟨t, ht, hcalls⟩ := truncLoop_keys hdel (c.os.attach_ino_self i) le_rfl
    (headerSize (c.os.inodes i)) c.store
  rw [Os.attach_inodes] at hcalls
  have hzero : blocks 0 = 0 := rfl
  rw [hzero, Nat.sub_zero] at hcalls
  rw [fuseTruncate_eq st.recorded h, hhead.offLoad_eq, ht]
  refine ⟨_, rfl, rfl, rfl, ?_, fun hsize => ?_⟩
  · simp only [hcalls, dels_append, dels_map_del, clears]
  · -- the loop is not entered
    rw [hsize] at ht
    simp only [truncLoop, roundUp, Loop.run] at ht
    simp only [← Option.some.inj ht]

variable [DecidableEq P]

/-- The references of the files after the name `p` of the file `i` is gone. -/
theorem usesOf_remove {c c' : Client (B × List StoreCall) P} {J : Finset ℕ} {p : P} {i : ℕ}
    (hnames : c'.os.names = update c.os.names p none)
    (hsame : ∀ j, c'.os.Reachable j → SameMetafile (c.os.inodes j) (c'.os.inodes j))
    (honly : c.os.OnlyName p i) (hi : i ∈ J) (k : Key) :
    c'.usesOf J k + uses (c.os.inodes i) k = c.usesOf J k := by
  classical
  have hiff : ∀ j, c'.os.Reachable j ↔ c.os.Reachable j ∧ j ≠ i :=
    fun j => Os.reachable_remove_only hnames honly
  have hreach : c.os.Reachable i := Os.reachable_iff.2 ⟨p, (honly p).2 rfl⟩
  rw [usesOf, usesOf, ← Finset.sum_erase_add _ _ hi, ← Finset.sum_erase_add J _ hi,
    if_neg (by simp [hiff]), if_pos hreach, add_zero, add_left_inj]
  refine Finset.sum_congr rfl fun j hj => ?_
  have hji := Finset.ne_of_mem_erase hj
  by_cases hr : c.os.Reachable j
  · have hr' := (hiff j).2 ⟨hr, hji⟩
    rw [if_pos hr, if_pos hr', (hsame j hr').uses_eq]
  · rw [if_neg hr, if_neg fun h => hr ((hiff j).1 h).1]

omit [DecidableEq P] in
/-- Files that stay as they are, as far as they stay reachable, have no new references. -/
theorem usesOf_le {c c' : Client (B × List StoreCall) P}
    (hreach : ∀ j, c'.os.Reachable j → c.os.Reachable j)
    (hsame : ∀ j, c'.os.Reachable j → SameMetafile (c.os.inodes j) (c'.os.inodes j))
    (J : Finset ℕ) (k : Key) : c'.usesOf J k ≤ c.usesOf J k := by
  classical
  refine Finset.sum_le_sum fun j _ => ?_
  by_cases hj : c'.os.Reachable j
  · rw [if_pos hj, if_pos (hreach j hj), (hsame j hj).uses_eq]
  · rw [if_neg hj]
    exact Nat.zero_le _

/-- Nothing is truncated, and the name may go. -/
theorem nameOnly_of_same {c c₁ : Client (B × List StoreCall) P} (hnames : c₁.os.names = c.os.names)
    (hsame : ∀ j, SameMetafile (c.os.inodes j) (c₁.os.inodes j)) (hstore : c₁.store = c.store)
    (J : Finset ℕ) (p : P) (allowed : Bool) :
    NameOnly J c (c₁.removeName allowed p).1 (c₁.removeName allowed p).2 := by
  unfold removeName
  cases hos : c₁.os.unlinkIf allowed p with
  | none => exact ⟨hsame, hstore⟩
  | some os =>
    have hos' : os = { c₁.os with names := update c₁.os.names p none } := by
      unfold Os.unlinkIf at hos
      split_ifs at hos
      exact Os.unlink_eq_some hos
    have hkept : ∀ j, SameMetafile (c.os.inodes j) (os.inodes j) := by
      rw [hos']
      exact hsame
    have hreach : ∀ j, os.Reachable j → c.os.Reachable j := fun j hj =>
      ((Os.reachable_remove (by rw [hos', hnames])).1 hj).1
    refine ⟨fun j _ => hkept j, fun k => ?_⟩
    have hle : usesOf { c₁ with os := os } J k ≤ c.usesOf J k :=
      usesOf_le hreach (fun j _ => hkept j) J k
    simpa only [hstore, add_le_add_iff_left] using hle

/-- The file `i` has been truncated to nothing, and then its name `p` was removed. -/
structure Emptied (c c' : Client (B × List StoreCall) P) (p : P) (i : ℕ) : Prop where
  names : c'.os.names = update c.os.names p none
  inodes : c'.os.inodes = update c.os.inodes i ((c.os.inodes i).pwrite (offBytes 0) 0)
  deletes : dels c'.store.2 = dels c.store.2 ++ clears (c.os.inodes i)

namespace Emptied

variable {c c' : Client (B × List StoreCall) P} {J : Finset ℕ} {p : P} {i : ℕ}

/-- Of the files that are still reachable only `i` is changed. -/
theorem files_iff (h : Emptied c c' p i) (hreach : c.os.Reachable i)
    (hsize : headerSize (c.os.inodes i) ≠ 0) :
    (∀ j, c'.os.Reachable j → SameMetafile (c.os.inodes j) (c'.os.inodes j)) ↔
      c.os.OnlyName p i := by
  constructor
  · intro hfiles
    by_contra honly
    have hsame := hfiles i ((Os.reachable_remove h.names).2 ⟨hreach, honly⟩)
    rw [h.inodes, update_self, sameMetafile_clear_iff] at hsame
    exact hsize hsame
  · intro honly j hj
    have hji := ((Os.reachable_remove_only h.names honly).1 hj).2
    rw [h.inodes, update_of_ne hji]
    exact .refl _

/-- With the only name of `i` its references go, and its deletes make up for them. -/
theorem references_iff (h : Emptied c c' p i) (hi : i ∈ J) (hreach : c.os.Reachable i)
    (hsize : headerSize (c.os.inodes i) ≠ 0) (honly : c.os.OnlyName p i) (k : Key) :
    (dels c'.store.2).count k + c'.usesOf J k ≤ (dels c.store.2).count k + c.usesOf J k ↔
      (clears (c.os.inodes i)).count k ≤ uses (c.os.inodes i) k := by
  have hrest := usesOf_remove h.names ((h.files_iff hreach hsize).2 honly) honly hi k
  rw [h.deletes, List.count_append]
  omega

theorem othersKept_iff (h : Emptied c c' p i) (hi : i ∈ J) (hreach : c.os.Reachable i)
    (hsize : headerSize (c.os.inodes i) ≠ 0) :
    OthersKept J c c' ↔ c.os.OnlyName p i ∧
      ∀ b < blocks (headerSize (c.os.inodes i)), HasEntry (c.os.inodes i) b := by
  rw [← count_clears_le_iff]
  constructor
  · intro hkept
    have honly := (h.files_iff hreach hsize).1 hkept.files
    exact ⟨honly, fun k => (h.references_iff hi hreach hsize honly k).1 (hkept.references k)⟩
  · rintro ⟨honly, hle⟩
    exact ⟨(h.files_iff hreach hsize).2 honly,
      fun k => (h.references_iff hi hreach hsize honly k).2 (hle k)⟩

theorem reachableKept_iff (h : Emptied c c' p i) (hi : i ∈ J) (hreach : c.os.Reachable i)
    (hsize : headerSize (c.os.inodes i) ≠ 0) :
    ReachableKept J c c' ↔ c.os.OnlyName p i ∧
      ∀ j, c.os.Reachable j → j ≠ i → ∀ k, 0 < uses (c.os.inodes j) k →
        (clears (c.os.inodes i)).count k ≤ uses (c.os.inodes i) k := by
  constructor
  · intro hkept
    have honly := (h.files_iff hreach hsize).1 hkept.files
    refine ⟨honly, fun j hj hji k hk => ?_⟩
    have hj' := (Os.reachable_remove_only h.names honly).2 ⟨hj, hji⟩
    rw [← (hkept.files j hj').uses_eq] at hk
    exact (h.references_iff hi hreach hsize honly k).1 (hkept.references j hj' k hk)
  · rintro ⟨honly, hle⟩
    have hfiles := (h.files_iff hreach hsize).2 honly
    refine ⟨hfiles, fun j hj' k hk => (h.references_iff hi hreach hsize honly k).2 ?_⟩
    obtain ⟨hj, hji⟩ := (Os.reachable_remove_only h.names honly).1 hj'
    rw [(hfiles j hj').uses_eq] at hk
    exact hle j hj hji k hk

end Emptied

/-- `fuse_unlink` ends. If the path leads to no file or to an empty one only the name is lost, else
the file is emptied, and then the name may be refused. -/
theorem fuseUnlinkIf_cases {st : BlockStore B} (hdel : ∀ b k, (st.delChunk b k).isSome)
    {c : Client (B × List StoreCall) P}
    (hfiles : ∀ i, c.os.Reachable i → Headed (c.os.inodes i)) (J : Finset ℕ) (allowed : Bool)
    (p : P) :
    ∃ c' ret, c.fuseUnlinkIf st.recorded {} allowed p = some (c', ret) ∧
      ((∀ i, c.os.lookup p = some i → headerSize (c.os.inodes i) = 0) ∧ NameOnly J c c' ret ∨
        ∃ i, c.os.lookup p = some i ∧ headerSize (c.os.inodes i) ≠ 0 ∧
          (allowed = false ∧ ret = none ∧ ¬Untouched c c' ∨
            allowed = true ∧ ret = some 0 ∧ Emptied c c' p i)) := by
  cases hp : c.os.lookup p with
  | none =>
    have htrunc : c.fuseTruncate st.recorded {} p 0 = some (c, none) := by
      simp [fuseTruncate, Os.openExisting, hp]
    have hname := nameOnly_of_same rfl (fun j => .refl (c.os.inodes j)) rfl J p allowed
    refine ⟨_, _, ?_, Or.inl ⟨by simp, hname⟩⟩
    simp only [fuseUnlinkIf, htrunc, Option.map_some]
  | some i =>
    obtain ⟨c₁, htrunc, hnames, hinodes, hdels, hstore⟩ :=
      fuseTruncate_clear hdel hp (hfiles i ⟨p, hp⟩)
    refine ⟨(c₁.removeName allowed p).1, (c₁.removeName allowed p).2, ?_, ?_⟩
    · simp only [fuseUnlinkIf, htrunc, Option.map_some]
    simp only [Option.some.injEq, forall_eq', exists_eq_left']
    by_cases hsize : headerSize (c.os.inodes i) = 0
    · have hsame : ∀ j, SameMetafile (c.os.inodes j) (c₁.os.inodes j) := by
        intro j
        rw [hinodes]
        by_cases hj : j = i
        · rw [hj, update_self]
          exact (sameMetafile_clear_iff _).2 hsize
        · rw [update_of_ne hj]
          exact .refl _
      exact Or.inl ⟨hsize, nameOnly_of_same hnames hsame (hstore hsize) J p allowed⟩
    refine Or.inr ⟨hsize, ?_⟩
    cases allowed with
    | false =>
      refine Or.inl ⟨rfl, rfl, fun h => hsize ?_⟩
      have hsame := h.files i
      simp only [removeName, Os.unlinkIf] at hsame
      rw [if_neg (by decide), hinodes, update_self, sameMetafile_clear_iff] at hsame
      exact hsame
    | true =>
      have hlookup : c₁.os.lookup p = some i := (Os.lookup_congr hnames p).trans hp
      have hos : c₁.os.unlinkIf true p = some { c₁.os with names := update c₁.os.names p none } :=
        Os.unlink_of_lookup hlookup
      have hremove : c₁.removeName true p =
          ({ c₁ with os := { c₁.os with names := update c₁.os.names p none } }, some 0) := by
        simp only [removeName, hos]
      rw [hremove]
      exact Or.inr ⟨rfl, rfl, by simp only [hnames], hinodes, hdels⟩

/-- The files that are still reachable lose nothing if and only if, besides, no key one of them
has is deleted more often than the removed file refers to it. -/
theorem unlink_keepsReachable_iff {st : BlockStore B} (hdel : ∀ b k, (st.delChunk b k).isSome)
    {c : Client (B × List StoreCall) P}
    (hfiles : ∀ i, c.os.Reachable i → Headed (c.os.inodes i))
    {J : Finset ℕ} (hJ : ∀ i, c.os.Reachable i → i ∈ J) (allowed : Bool) (p : P) :
    ∃ c' ret, c.fuseUnlinkIf st.recorded {} allowed p = some (c', ret) ∧
      (KeepsReachable J c c' ret ↔ ∀ i, c.os.lookup p = some i →
        headerSize (c.os.inodes i) = 0 ∨ allowed = true ∧ c.os.OnlyName p i ∧
          ∀ j, c.os.Reachable j → j ≠ i → ∀ k, 0 < uses (c.os.inodes j) k →
            (clears (c.os.inodes i)).count k ≤ uses (c.os.inodes i) k) := by
  obtain ⟨c', ret, hres, hcases⟩ := fuseUnlinkIf_cases hdel hfiles J allowed p
  refine ⟨c', ret, hres, ?_⟩
  rcases hcases with ⟨hzero, hname⟩ | ⟨i, hp, hsize, hcases⟩
  · exact iff_of_true hname.keepsReachable fun i hi => Or.inl (hzero i hi)
  simp only [hp, Option.some.injEq, forall_eq', or_iff_right hsize]
  rcases hcases with ⟨rfl, rfl, hnot⟩ | ⟨rfl, rfl, hempty⟩
  · exact iff_of_false hnot (by simp)
  · simpa only [KeepsReachable, true_and] using
      hempty.reachableKept_iff (hJ i ⟨p, hp⟩) ⟨p, hp⟩ hsize

/-- A file of one block, with a name. -/
def oneName : Client (Unit × List StoreCall) ℕ :=
  ofFile (metafile 4096 [firstByte [7]]) 4096 ((), [])

/-- `oneName` with a second name for the file. -/
def twoNames : Client (Unit × List StoreCall) ℕ :=
  { oneName with os := { oneName.os with names := update oneName.os.names 1 (some (.file 0)) } }

theorem oneName_names {q : ℕ} {x : Node ℕ} (h : oneName.os.names q = some x) :
    q = 0 ∧ x = .file 0 := by
  by_cases hq : q = 0
  · subst hq
    have hname : oneName.os.names 0 = some (.file 0) := rfl
    exact ⟨rfl, by simpa using h.symm.trans hname⟩
  · simp [oneName, ofFile, hq] at h

theorem oneName_reachable {i : ℕ} (h : oneName.os.Reachable i) : i = 0 := by
  obtain ⟨q, hq⟩ := Os.reachable_iff.1 h
  simpa using (oneName_names hq).2

end Client

end Agilefs
