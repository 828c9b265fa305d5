import Agilefs.CString
import Agilefs.Loop

/-!
# Paths of digests

`md5_to_path` turns the digest at `path + 20` into the name of a block file, a hexadecimal text
written over the same buffer from its start. The text grows two bytes for each byte read and
`sprintf` ends it with a NUL, so its end catches up with the bytes still to be read. The NUL
written with byte 18 lands on byte 19 of the digest : `readDigest` is the digest as the loop
reads it, the whole digest in the build with 16 bytes, and with a zero for its last byte in the
build with 20.

`md5ToPath_spec` is the string left at the start of the buffer, `pathOf_eq_iff` says which
digests share a path, and `encodes_iff` when the path is that of the digest.
-/

namespace Agilefs

namespace Md5Path

open ByteFile CString

/-- The two builds, without and with `__USE_SHA1`. -/
inductive HashKind
  | md5
  | sha1

/-- `hash_size`. -/
def hashSize : HashKind → ℕ
  | .md5 => 16
  | .sha1 => 20

/-- The variables of `md5_to_path`. -/
structure Vars where
  i : ℕ
  j : ℕ
  path : List UInt8

/-- `'/'`. -/
def slash : UInt8 := 47

/-- `sprintf(path + i, "%02x", *(path + j))` : the two digits and a NUL. -/
def sprintfByte (path : List UInt8) (i j : ℕ) : Option (List UInt8) :=
  path[j]?.bind fun b => store path (hexByte b ++ [0]) i

/-- `i < iEnd && j < jEnd`. -/
def more (iEnd jEnd : ℕ) (v : Vars) : Bool := v.i < iEnd && v.j < jEnd

/-- One iteration. -/
def body (v : Vars) : Option Vars :=
  (sprintfByte v.path v.i v.j).map fun path => ⟨v.i + 2, v.j + 1, path⟩

/-- The body of `md5_to_path` for a text that ends at `iEnd` and a digest that ends at `jEnd`.
`i` grows in each iteration, so that `iEnd` of them are enough. -/
def md5ToPathWith (iEnd jEnd : ℕ) (path : List UInt8) : Option (List UInt8) := do
  let path ← sprintfByte path 0 20
  let path ← store path [slash] 2
  let v ← Loop.run (more iEnd jEnd) body (iEnd + 1) ⟨3, 21, path⟩
  store v.path [0] iEnd

/-- `md5_to_path`. -/
def md5ToPath : HashKind → List UInt8 → Option (List UInt8)
  | .md5, path => md5ToPathWith 33 36 path
  | .sha1, path => md5ToPathWith 41 40 path

/-- The bytes that `md5_to_path` needs. -/
def roomFor : HashKind → ℕ
  | .md5 => 36
  | .sha1 => 42

/-- The buffer `path`, large enough. -/
def Buffer (kind : HashKind) : Type := {path : List UInt8 // roomFor kind ≤ path.length}

/-- The digest stored at `path + 20`. -/
def Buffer.digest {kind : HashKind} (buf : Buffer kind) : List UInt8 :=
  pread buf.val (hashSize kind) 20

/-- The text of a digest : the digits of the first byte, a slash, and the digits of the rest. -/
def pathText : List UInt8 → List UInt8
  | [] => []
  | b :: rest => hexByte b ++ slash :: rest.flatMap hexByte

/-- The digest as the loop reads it. -/
def readDigest (digest : List UInt8) : List UInt8 := digest.set 19 0

/-! ## The text -/

theorem pathText_ne_zero {l : List UInt8} {b : UInt8} (h : b ∈ pathText l) : b ≠ 0 := by
  cases l with
  | nil => simp [pathText] at h
  | cons c rest =>
    rw [pathText, List.mem_append, List.mem_cons, List.mem_flatMap] at h
    rcases h with h | rfl | ⟨d, -, h⟩
    · exact hexByte_ne_zero h
    · decide
    · exact hexByte_ne_zero h

theorem length_pathText : ∀ {l : List UInt8}, l ≠ [] → (pathText l).length = 2 * l.length + 1
  | [], h => absurd rfl h
  | b :: rest, _ => by
    rw [pathText, List.length_append, List.length_cons, length_flatMap_hexByte, length_hexByte,
      List.length_cons]
    omega

/-- Different digests have different texts. -/
theorem pathText_injective : ∀ {l l' : List UInt8}, pathText l = pathText l' → l = l'
  | [], [], _ => rfl
  | [], b :: rest, h => by simp [pathText, hexByte] at h
  | b :: rest, [], h => by simp [pathText, hexByte] at h
  | b :: rest, c :: rest', h => by
    obtain ⟨hbyte, hrest⟩ := List.append_inj h rfl
    rw [hexByte_injective hbyte, flatMap_hexByte_injective (List.cons.inj hrest).2]

/-- One more byte makes the text two digits longer. -/
theorem pathText_take_succ {l : List UInt8} {n : ℕ} {b : UInt8} (h : l[n + 1]? = some b) :
    pathText (l.take (n + 2)) = pathText (l.take (n + 1)) ++ hexByte b := by
  cases l with
  | nil => simp at h
  | cons c rest =>
    rw [List.getElem?_cons_succ] at h
    rw [List.take_succ_cons, List.take_succ_cons, pathText, pathText, List.take_add_one, h,
      List.flatMap_append, Option.toList_some, List.flatMap_singleton, List.append_assoc,
      List.cons_append]

/-- The loop reads the digest if it has no byte 19 or a zero there. -/
theorem readDigest_eq_iff {l : List UInt8} :
    readDigest l = l ↔ ∀ b, l[19]? = some b → b = 0 := by
  rw [readDigest]
  constructor
  · intro heq b hb
    have hlen : 19 < l.length := (List.getElem?_eq_some_iff.1 hb).1
    rw [← heq, List.getElem?_set_self hlen] at hb
    exact (Option.some.inj hb).symm
  · intro hzero
    refine List.ext_getElem? fun k => ?_
    rw [List.getElem?_set]
    split_ifs with hk hlen
    · rw [← hk, List.getElem?_eq_getElem hlen, hzero _ (List.getElem?_eq_getElem hlen)]
    · rw [← hk, List.getElem?_eq_none (by omega)]
    · rfl

/-! ## The loop -/

theorem hashSize_le (kind : HashKind) : 1 ≤ hashSize kind ∧ hashSize kind ≤ 20 := by
  cases kind <;> decide

/-- The digest and the text fit in the buffer. -/
theorem Buffer.room {kind : HashKind} (buf : Buffer kind) :
    hashSize kind + 20 ≤ buf.val.length ∧ 2 * hashSize kind + 2 ≤ buf.val.length := by
  have hroom := buf.property
  cases kind <;> simp only [roomFor, hashSize] at hroom ⊢ <;> omega

theorem md5ToPath_eq (kind : HashKind) (path : List UInt8) :
    md5ToPath kind path = md5ToPathWith (2 * hashSize kind + 1) (hashSize kind + 20) path := by
  cases kind <;> rfl

/-- What follows the text of `t + 1` bytes : the NUL of the last `sprintf`, but for the first text,
whose NUL the slash replaces, and the bytes not written yet. -/
def rest (path : List UInt8) : ℕ → List UInt8
  | 0 => path.drop 3
  | t + 1 => 0 :: path.drop (2 * t + 6)

theorem getElem?_rest (path : List UInt8) (t k : ℕ) :
    (rest path t)[k]? = if t ≠ 0 ∧ k = 0 then some 0 else path[2 * t + 3 + k]? := by
  rcases t with _ | t
  · rw [rest, List.getElem?_drop, if_neg (by simp)]
  · rcases k with _ | k
    · simp [rest]
    · rw [rest, List.getElem?_cons_succ, List.getElem?_drop, if_neg (by simp)]
      congr 1
      omega

/-- Two digits more and a NUL. -/
theorem rest_succ (path : List UInt8) (t : ℕ) : rest path (t + 1) = 0 :: (rest path t).drop 3 := by
  rcases t with _ | t
  · rw [rest, rest, List.drop_drop]
  · rw [rest, rest, List.drop_succ_cons, List.drop_drop]
    congr 2

theorem length_rest (path : List UInt8) (t : ℕ) :
    path.length ≤ (rest path t).length + 2 * t + 3 := by
  rcases t with _ | t
  · rw [rest, List.length_drop]
    omega
  · rw [rest, List.length_cons, List.length_drop]
    omega

section Runs

variable {kind : HashKind} (buf : Buffer kind)

/-- The variables once `t + 1` bytes are written. -/
def Buffer.after (t : ℕ) : Vars :=
  ⟨2 * t + 3, t + 21, pathText ((readDigest buf.digest).take (t + 1)) ++ rest buf.val t⟩

@[simp] theorem Buffer.after_i (t : ℕ) : (buf.after t).i = 2 * t + 3 := rfl

@[simp] theorem Buffer.after_j (t : ℕ) : (buf.after t).j = t + 21 := rfl

theorem Buffer.length_digest : buf.digest.length = hashSize kind := by
  rw [Buffer.digest, length_pread]
  have := buf.room
  omega

theorem Buffer.getElem?_digest {k : ℕ} (h : k < hashSize kind) :
    buf.digest[k]? = buf.val[20 + k]? := by
  rw [Buffer.digest, getElem?_pread, if_pos h]

theorem Buffer.length_readDigest : (readDigest buf.digest).length = hashSize kind := by
  rw [readDigest, List.length_set, buf.length_digest]

theorem Buffer.exists_readDigest {k : ℕ} (h : k < hashSize kind) :
    ∃ b, (readDigest buf.digest)[k]? = some b :=
  ⟨_, List.getElem?_eq_getElem (by rwa [buf.length_readDigest])⟩

theorem Buffer.length_text {t : ℕ} (h : t + 1 ≤ hashSize kind) :
    (pathText ((readDigest buf.digest).take (t + 1))).length = 2 * t + 3 := by
  have hlen : ((readDigest buf.digest).take (t + 1)).length = t + 1 := by
    rw [List.length_take, buf.length_readDigest, min_eq_left h]
  rw [length_pathText (List.ne_nil_of_length_pos (by omega)), hlen]
  omega

/-- The byte read is the NUL written before it, or one of the buffer as it was. -/
theorem Buffer.getElem?_after {t : ℕ} (h : t + 1 < hashSize kind) :
    (buf.after t).path[t + 21]? = (readDigest buf.digest)[t + 1]? := by
  have hsize := hashSize_le kind
  have hlen := buf.length_text h.le
  rw [Buffer.after, List.getElem?_append_right (by omega), hlen, getElem?_rest, readDigest,
    List.getElem?_set, buf.length_digest]
  by_cases ht : t = 18
  · rw [if_pos (by omega), if_pos (by omega), if_pos (by omega)]
  · rw [if_neg (by omega), if_neg (by omega), buf.getElem?_digest h]
    congr 1
    omega

/-- One iteration. -/
theorem Buffer.body_after {t : ℕ} (h : t + 1 < hashSize kind) :
    body (buf.after t) = some (buf.after (t + 1)) := by
  have hroom := buf.room
  have hlen := buf.length_text h.le
  have hrest := length_rest buf.val t
  obtain ⟨b, hb⟩ := buf.exists_readDigest h
  have hstore : store (buf.after t).path (hexByte b ++ [0]) (2 * t + 3) =
      some (buf.after (t + 1)).path := by
    rw [Buffer.after, ← hlen, store_append _ (by simp; omega), Buffer.after,
      pathText_take_succ hb, rest_succ]
    simp
  rw [body, sprintfByte, after_i, after_j, buf.getElem?_after h, hb, Option.bind_some, hstore]
  rfl

/-- The first byte and the slash. -/
theorem Buffer.start : ((sprintfByte buf.val 0 20).bind fun path => store path [slash] 2) =
    some (buf.after 0).path := by
  have hroom := buf.room
  have hsize := hashSize_le kind
  obtain ⟨b, hb⟩ := buf.exists_readDigest hsize.1
  have hread : buf.val[20]? = some b := by
    rw [← hb, readDigest, List.getElem?_set_ne (by omega), buf.getElem?_digest (by omega)]
  have hfirst : store ([] ++ buf.val) (hexByte b ++ [0]) 0 =
      some ([] ++ (hexByte b ++ [0]) ++ buf.val.drop 3) := store_append [] (by simp; omega)
  have hslash : store (hexByte b ++ 0 :: buf.val.drop 3) [slash] (hexByte b).length =
      some (hexByte b ++ [slash] ++ buf.val.drop 3) := store_append _ (by simp)
  have htext : (readDigest buf.digest).take 1 = [b] := by
    rw [List.take_add_one, hb]
    rfl
  simp only [List.nil_append, List.append_assoc, List.singleton_append] at hfirst hslash
  rw [sprintfByte, hread, Option.bind_some, hfirst, Option.bind_some, ← length_hexByte b, hslash,
    Buffer.after, htext]
  simp [pathText, rest]

theorem Buffer.more_after {t : ℕ} :
    more (2 * hashSize kind + 1) (hashSize kind + 20) (buf.after t) = true ↔
      t + 1 < hashSize kind := by
  rw [more, Bool.and_eq_true, decide_eq_true_eq, decide_eq_true_eq, after_i, after_j]
  omega

/-- The loop ends once the digest is read. -/
theorem Buffer.run_loop :
    ∃ t, t + 1 = hashSize kind ∧
      Loop.run (more (2 * hashSize kind + 1) (hashSize kind + 20)) body
        (2 * hashSize kind + 1 + 1) (buf.after 0) = some (buf.after t) := by
  have hsize := hashSize_le kind
  have hbody : ∀ v, (∃ t, t + 1 ≤ hashSize kind ∧ v = buf.after t) →
      more (2 * hashSize kind + 1) (hashSize kind + 20) v = true →
      ∃ v', body v = some v' ∧ (∃ t, t + 1 ≤ hashSize kind ∧ v' = buf.after t) ∧
        2 * hashSize kind + 1 - v'.i < 2 * hashSize kind + 1 - v.i := by
    rintro _ ⟨t, -, rfl⟩ hmore
    have hlt := buf.more_after.1 hmore
    refine ⟨_, buf.body_after hlt, ⟨t + 1, hlt, rfl⟩, ?_⟩
    rw [after_i, after_i]
    omega
  obtain ⟨_, hrun, ⟨t, ht, rfl⟩, hend⟩ := Loop.run_spec (n := 2 * hashSize kind + 1 + 1)
    hbody ⟨0, hsize.1, rfl⟩ (by rw [after_i]; omega)
  have hge : ¬t + 1 < hashSize kind := fun h => by simp [buf.more_after.2 h] at hend
  exact ⟨t, by omega, hrun⟩

/-- What `md5_to_path` leaves at the start of the buffer. -/
theorem Buffer.md5ToPath_spec :
    ∃ path, md5ToPath kind buf.val = some path ∧
      ofBuffer path = some (pathText (readDigest buf.digest)) := by
  obtain ⟨t, ht, hrun⟩ := buf.run_loop
  have hroom := buf.room
  have hlen := buf.length_text ht.le
  have hrest := length_rest buf.val t
  have htake : (readDigest buf.digest).take (t + 1) = readDigest buf.digest :=
    List.take_of_length_le (by rw [buf.length_readDigest, ht])
  have hend : store (buf.after t).path [0] (2 * hashSize kind + 1) =
      some (pathText (readDigest buf.digest) ++ [0] ++ (rest buf.val t).drop 1) := by
    rw [htake] at hlen
    rw [Buffer.after, htake, show 2 * hashSize kind + 1 = 2 * t + 3 by omega, ← hlen]
    exact store_append _ (by rw [List.length_singleton]; omega)
  obtain ⟨path, hfirst, hslash⟩ := Option.bind_eq_some_iff.1 buf.start
  refine ⟨pathText (readDigest buf.digest) ++ [0] ++ (rest buf.val t).drop 1, ?_, ?_⟩
  · have hloop : Loop.run (more (2 * hashSize kind + 1) (hashSize kind + 20)) body
        (2 * hashSize kind + 1 + 1) ⟨3, 21, (buf.after 0).path⟩ = some (buf.after t) := hrun
    simp only [md5ToPath_eq, md5ToPathWith, hfirst, hslash, hloop, Option.bind_eq_bind,
      Option.bind_some, hend]
  · rw [List.append_assoc]
    exact ofBuffer_append (fun _ hb => pathText_ne_zero hb) _

end Runs

/-! ## Paths and digests -/

/-- The string at `path` after `md5_to_path`. -/
def pathOf {kind : HashKind} (buf : Buffer kind) : Option (List UInt8) :=
  (md5ToPath kind buf.val).bind ofBuffer

theorem pathOf_eq {kind : HashKind} (buf : Buffer kind) :
    pathOf buf = some (pathText (readDigest buf.digest)) := by
  obtain ⟨path, hpath, htext⟩ := buf.md5ToPath_spec
  rw [pathOf, hpath, Option.bind_some, htext]

/-- Two digests have one path if and only if they agree as they are read. -/
theorem pathOf_eq_iff {kind : HashKind} (buf buf' : Buffer kind) :
    pathOf buf = pathOf buf' ↔ readDigest buf.digest = readDigest buf'.digest := by
  rw [pathOf_eq, pathOf_eq, Option.some_inj]
  exact ⟨pathText_injective, fun h => by rw [h]⟩

/-- The path is that of the digest if and only if the digest is read as it is. -/
theorem pathOf_eq_text_iff {kind : HashKind} (buf : Buffer kind) :
    pathOf buf = some (pathText buf.digest) ↔ readDigest buf.digest = buf.digest := by
  rw [pathOf_eq, Option.some_inj]
  exact ⟨pathText_injective, fun h => by rw [h]⟩

/-- The digest has 16 bytes, or its last byte is zero. -/
def LastZero {kind : HashKind} (buf : Buffer kind) : Prop :=
  kind = .md5 ∨ buf.digest[19]? = some 0

theorem lastZero_iff {kind : HashKind} (buf : Buffer kind) :
    LastZero buf ↔ readDigest buf.digest = buf.digest := by
  have hlen := buf.length_digest
  rw [readDigest_eq_iff, LastZero]
  cases kind with
  | md5 =>
    refine ⟨fun _ b hb => ?_, fun _ => Or.inl rfl⟩
    rw [List.getElem?_eq_none (by rw [hlen]; decide)] at hb
    cases hb
  | sha1 =>
    obtain ⟨b, hb⟩ : ∃ b, buf.digest[19]? = some b :=
      ⟨_, List.getElem?_eq_getElem (by rw [hlen]; decide)⟩
    simp [hb]

/-- The paths of two digests are their texts, and different unless the digests are equal, if and
only if neither loses a byte. -/
theorem encodes_iff (kind : HashKind) (buf buf' : Buffer kind) :
    pathOf buf = some (pathText buf.digest) ∧ pathOf buf' = some (pathText buf'.digest) ∧
        (buf.digest ≠ buf'.digest → pathOf buf ≠ pathOf buf') ↔
      LastZero buf ∧ LastZero buf' := by
  rw [pathOf_eq_text_iff, pathOf_eq_text_iff, lastZero_iff, lastZero_iff]
  refine ⟨fun h => ⟨h.1, h.2.1⟩, fun ⟨h, h'⟩ => ⟨h, h', fun hne heq => hne ?_⟩⟩
  rwa [pathOf_eq_iff, h, h'] at heq

/-- 20 zeros followed by a digest that ends with a byte, and room for the text. -/
def bufferOf (b : UInt8) : Buffer .sha1 :=
  ⟨List.replicate 39 0 ++ b :: List.replicate 2 0, by simp [roomFor]⟩

theorem bufferOf_digest (b : UInt8) :
    (bufferOf b).digest = List.replicate 19 0 ++ [b] := rfl

/-- The path of a digest that ends with a one is not its text, and is that of another digest. -/
theorem encodes_counterexample :
    pathOf (bufferOf 1) ≠ some (pathText (bufferOf 1).digest) ∧
      (bufferOf 1).digest ≠ (bufferOf 2).digest ∧ pathOf (bufferOf 1) = pathOf (bufferOf 2) := by
  rw [ne_eq, pathOf_eq_text_iff, pathOf_eq_iff, bufferOf_digest, bufferOf_digest]
  decide

end Md5Path

end Agilefs
