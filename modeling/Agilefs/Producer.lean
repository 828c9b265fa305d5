import Agilefs.Sharding

/-!
# What the producer puts in the queue

`test_get_one_chunk(key, buf, size)` reads a block of the input file into `buf` and stores its
hash at `key`. `producer_thread_fun` calls it with its block buffer as `key` and its 16-byte key
buffer as `buf`, and only the first 16 bytes are hashed. A transfer beyond the end of a buffer has
no meaning in C and is `none` here.

`produced_iff` : the pairs put in the queue are the zero-padded blocks of the file under their
hashes, whatever the two buffers hold at the start, if and only if the file is empty. A file of
more than 16 bytes runs over the key buffer (`producerThreadFun_long`).
-/

namespace Agilefs

/-- `read(fd, buf, count)`, where `rest` are the bytes of the file not read yet. -/
def readInto (rest buf : List UInt8) (count : ℕ) : Option (List UInt8 × List UInt8 × ℤ) :=
  let d := rest.take count
  if buf.length < d.length then none
  else some (rest.drop count, d ++ buf.drop d.length, d.length)

/-- `md5(input, ilen, output)`, where `H` is the hash. -/
def md5 (H : List UInt8 → HashKey false) (input : List UInt8) (ilen : ℕ) (output : List UInt8) :
    Option (List UInt8) :=
  if input.length < ilen ∨ output.length < 16 then none
  else some ((H (input.take ilen)).val ++ output.drop 16)

/-- `test_get_one_chunk`. The argument `size` is not used. -/
def testGetOneChunk (H : List UInt8 → HashKey false) (rest key buf : List UInt8) (_size : ℕ) :
    Option (List UInt8 × List UInt8 × List UInt8 × ℤ) :=
  (readInto rest buf fspSize).bind fun (rest, buf, ret) =>
    if ret > 0 then (md5 H buf (hashSize false) key).map fun key => (rest, key, buf, ret)
    else some (rest, key, buf, ret)

/-- The input file from where `fd` stands, and the local variables of `producer_thread_fun`. -/
structure ProducerFrame where
  rest : List UInt8
  chunkData : List UInt8
  hashKey : List UInt8

/-- An iteration of `producer_thread_fun` : the pair it copies into the queue, if it does not leave
the loop. -/
def ProducerFrame.iteration (H : List UInt8 → HashKey false) (m : ProducerFrame) :
    Option (ProducerFrame × Option (List UInt8 × List UInt8)) :=
  (testGetOneChunk H m.rest m.chunkData m.hashKey fspSize).bind
    fun (rest, chunkData, hashKey, ret) =>
      let m : ProducerFrame := ⟨rest, chunkData, hashKey⟩
      if ret ≤ 0 then some (m, none)
      else
        let hashIndex := queueIndex hashKey
        if 0 ≤ hashIndex ∧ hashIndex < numBufferQueues then
          some (m, some (hashKey.take (hashSize false), chunkData.take fspSize))
        else none

namespace ProducerFrame

variable {H : List UInt8 → HashKey false} {m : ProducerFrame}

/-- At the end of the file the producer leaves the loop. -/
theorem iteration_nil (h : m.rest = []) : ∃ m', m.iteration H = some (m', none) :=
  ⟨⟨[], m.chunkData, m.hashKey⟩, by simp [iteration, testGetOneChunk, readInto, h]⟩

/-- A block longer than the key buffer runs over it. -/
theorem iteration_long (h : m.hashKey.length < (m.rest.take fspSize).length) :
    m.iteration H = none := by
  simp only [iteration, testGetOneChunk, readInto, if_pos h, Option.bind_none]

/-- The pair of a block that fits in the key buffer : the block over what the key buffer held, and
the hash of that over what the block buffer held. -/
theorem iteration_some {m' : ProducerFrame} {p : List UInt8 × List UInt8}
    (h : m.iteration H = some (m', some p)) :
    m.rest ≠ [] ∧ m'.rest = m.rest.drop fspSize ∧ ∃ key : List UInt8,
      p = (key.take 16, ((H (key.take 16)).val ++ m.chunkData.drop 16).take fspSize) := by
  obtain ⟨⟨rest, chunkData, hashKey, ret⟩, hget, hrest⟩ := Option.bind_eq_some_iff.1 h
  obtain ⟨⟨rest₁, key, ret₁⟩, hread, hmd5⟩ := Option.bind_eq_some_iff.1 hget
  simp only [readInto] at hread
  split_ifs at hread
  simp only [Option.some.injEq, Prod.mk.injEq] at hread
  obtain ⟨rfl, rfl, rfl⟩ := hread
  dsimp only at hmd5 hrest
  split_ifs at hmd5 with hpos
  · obtain ⟨output, hout, heq⟩ := Option.map_eq_some_iff.1 hmd5
    simp only [Prod.mk.injEq] at heq
    obtain ⟨rfl, rfl, rfl, rfl⟩ := heq
    unfold md5 at hout
    split_ifs at hout
    rw [if_neg (not_le.2 hpos)] at hrest
    split_ifs at hrest
    simp only [Option.some.injEq, Prod.mk.injEq] at hout hrest
    obtain ⟨rfl, rfl⟩ := hrest
    refine ⟨?_, rfl, _, by rw [← hout]; rfl⟩
    rintro hnil
    simp [hnil] at hpos
  · simp only [Option.some.injEq, Prod.mk.injEq] at hmd5
    obtain ⟨-, -, -, rfl⟩ := hmd5
    rw [if_pos (not_lt.1 hpos)] at hrest
    simp at hrest

/-- An iteration that copies a pair has read something. -/
theorem length_rest_lt {m' : ProducerFrame} {p : List UInt8 × List UInt8}
    (h : m.iteration H = some (m', some p)) : m'.rest.length < m.rest.length := by
  obtain ⟨hne, hrest, -⟩ := iteration_some h
  have := List.length_pos_iff.2 hne
  rw [hrest, List.length_drop, fspSize]
  omega

end ProducerFrame

/-- The pairs that `producer_thread_fun` copies into the queue. -/
def producerThreadFun (H : List UInt8 → HashKey false) (m : ProducerFrame) :
    Option (List (List UInt8 × List UInt8)) :=
  match _h : m.iteration H with
  | none => none
  | some (_, none) => some []
  | some (m', some p) => (producerThreadFun H m').map (p :: ·)
termination_by m.rest.length
decreasing_by exact ProducerFrame.length_rest_lt _h

theorem producerThreadFun_eq (H : List UInt8 → HashKey false) (m : ProducerFrame) :
    producerThreadFun H m = (m.iteration H).bind fun r =>
      match r.2 with
      | none => some []
      | some p => (producerThreadFun H r.1).map (p :: ·) := by
  rw [producerThreadFun]
  split
  · next h => rw [h]; rfl
  · next h => rw [h]; rfl
  · next h => rw [h]; rfl

/-! ## The blocks of the file -/

/-- The blocks of the file, the last one padded with zeros. -/
def fileBlocks (file : List UInt8) : List (List UInt8) :=
  (List.range ((file.length + (fspSize - 1)) / fspSize)).map fun i =>
    let d := (file.drop (fspSize * i)).take fspSize
    d ++ List.replicate (fspSize - d.length) 0

/-- Whatever the buffers hold at the start, the producer puts each block of the file in the queue
under its hash. -/
def ProducesBlocks (H : List UInt8 → HashKey false) (file : List UInt8) : Prop :=
  ∀ chunkData hashKey : List UInt8, chunkData.length = fspSize →
    hashKey.length = hashSize false →
      producerThreadFun H ⟨file, chunkData, hashKey⟩ =
        some ((fileBlocks file).map fun b => ((H b).val, b))

variable {H : List UInt8 → HashKey false} {file : List UInt8}

/-- A file longer than a key runs over the key buffer. -/
theorem producerThreadFun_long {chunkData hashKey : List UInt8}
    (hkey : hashKey.length = hashSize false) (h : hashSize false < file.length) :
    producerThreadFun H ⟨file, chunkData, hashKey⟩ = none := by
  have hlong : hashKey.length < (file.take fspSize).length := by
    rw [List.length_take, hkey]
    simp only [hashSize, fspSize, Bool.false_eq_true, if_false] at h ⊢
    omega
  rw [producerThreadFun_eq, ProducerFrame.iteration_long hlong, Option.bind_none]

/-- The data of a pair is a hash over what the block buffer held at the start. -/
theorem ProducesBlocks.eq_nil (h : ProducesBlocks H file) : file = [] := by
  by_contra hne
  have hkey : (List.replicate 16 (0 : UInt8)).length = hashSize false := List.length_replicate
  have hrun := h (List.replicate fspSize 1) (List.replicate 16 0) List.length_replicate hkey
  have hlen : file.length ≤ 16 := by
    by_contra hlong
    rw [producerThreadFun_long hkey (not_le.1 hlong)] at hrun
    cases hrun
  have hpos := List.length_pos_iff.2 hne
  -- the file is one block, and the last byte of its padding is not what the buffer held
  have hblocks : fileBlocks file = [file ++ List.replicate (4096 - file.length) 0] := by
    have hcount : (file.length + 4095) / 4096 = 1 := by omega
    have htake : file.take 4096 = file := List.take_of_length_le (by omega)
    have hmin : 4096 - min 4096 file.length = 4096 - file.length := by omega
    simp [fileBlocks, fspSize, hcount, htake, hmin]
  rw [hblocks, List.map_singleton, producerThreadFun_eq, Option.bind_eq_some_iff] at hrun
  obtain ⟨⟨m', p⟩, hit, hres⟩ := hrun
  cases p with
  | none => simp at hres
  | some p =>
    obtain ⟨ps, -, hps⟩ := Option.map_eq_some_iff.1 hres
    obtain ⟨-, -, key, hp⟩ := ProducerFrame.iteration_some hit
    rw [List.cons.injEq, hp, Prod.mk.injEq] at hps
    have hlast := congrArg (fun l => l[4095]?) hps.1.2
    simp only at hlast
    have hH : (H (key.take 16)).val.length = 16 := (H (key.take 16)).property
    rw [List.getElem?_take_of_lt (by decide), List.drop_replicate,
      List.getElem?_append_right (by omega), List.getElem?_append_right (by omega),
      List.getElem?_replicate_of_lt (by rw [hH]; decide),
      List.getElem?_replicate_of_lt (by omega)] at hlast
    cases hlast

theorem producesBlocks_nil (H : List UInt8 → HashKey false) : ProducesBlocks H [] := by
  intro chunkData hashKey _ _
  obtain ⟨m', hm'⟩ := ProducerFrame.iteration_nil (H := H) (m := ⟨[], chunkData, hashKey⟩) rfl
  rw [producerThreadFun_eq, hm']
  rfl

/-- The producer puts the blocks of the file in the queue under their hashes if and only if there
are none. -/
theorem produced_iff (H : List UInt8 → HashKey false) (file : List UInt8) :
    ProducesBlocks H file ↔ file = [] :=
  ⟨ProducesBlocks.eq_nil, fun h => h ▸ producesBlocks_nil H⟩

/-- A file of 17 bytes runs over the key buffer. -/
theorem produced_counterexample :
    ¬∀ (H : List UInt8 → HashKey false) (file : List UInt8), ProducesBlocks H file := by
  intro h
  let H : List UInt8 → HashKey false := fun _ => ⟨List.replicate 16 0, rfl⟩
  have hrun := h H (List.replicate 17 0) (List.replicate fspSize 0) (List.replicate 16 0)
    List.length_replicate rfl
  rw [producerThreadFun_long rfl (by decide)] at hrun
  cases hrun

end Agilefs
