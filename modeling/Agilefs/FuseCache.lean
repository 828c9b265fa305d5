import Agilefs.FuseLoops
import Agilefs.StoreInvariant

/-!
# The block cache

`client/fuse_cache.c`, compiled with `WITH_CACHE` : blocks by their key in 1024 lines of 8 ways,
where each way has a life that decides which block is replaced. `BlockCache` is what the client
uses of it; `noCache` is the cache compiled without `WITH_CACHE`.

The hashes and lives (`Tags`) alone decide which way a call reads or writes. `cacheRead_cases` :
a call finds a block if and only if its key is `Cached`. `cacheWrite_cases` : a call replaces
the block of one way of the line of its key, or none.
-/

namespace Agilefs

open Function ByteFile

/-- The calls the client makes to the cache. `cacheRead` yields the bytes copied, none if it
returns `0`. -/
structure BlockCache (C : Type*) where
  cacheRead : C → Key → ℕ → C × List UInt8
  cacheWrite : C → Key → List UInt8 → C

/-- The cache without `WITH_CACHE`. -/
def noCache : BlockCache Unit := ⟨fun c _ _ => (c, []), fun c _ _ => c⟩

/-- `CACHE_LINES`. -/
def cacheLines : ℕ := 1 <<< 10

/-- `CACHE_WAYS`. -/
def cacheWays : ℕ := 8

/-- `USHRT_MAX`. -/
def ushrtMax : ℕ := 65535

/-- The line of a hash. -/
def lineOf (hash : Key) : ℕ :=
  hash.val.foldl (fun line b => ((line <<< 8) + b.toNat) % 2 ^ 32) 0 % cacheLines

/-- An array by line and way with another element. -/
def setAt {α : Type*} (a : ℕ → ℕ → α) (line way : ℕ) (x : α) : ℕ → ℕ → α :=
  update a line (update (a line) way x)

theorem setAt_apply {α : Type*} (a : ℕ → ℕ → α) (line way : ℕ) (x : α) (line' way' : ℕ) :
    setAt a line way x line' way' = if line' = line ∧ way' = way then x else a line' way' := by
  by_cases hl : line' = line
  · subst hl
    by_cases hw : way' = way <;> simp [setAt, hw]
  · simp [setAt, hl]

/-! ## Hashes and lives -/

/-- `hash_arr` and `life_arr`. -/
structure Tags where
  hashArr : ℕ → ℕ → Key
  lifeArr : ℕ → ℕ → ℕ

namespace Tags

/-- One iteration of the loop of `cache_read`. Its test `cache.life_arr>0` is one of an address
and always true. -/
def readWay (line : ℕ) (hash : Key) (s : Option ℕ × Tags) (i : ℕ) : Option ℕ × Tags :=
  if s.2.hashArr line i = hash then (some i, s.2)
  else (s.1, { s.2 with
    lifeArr := setAt s.2.lifeArr line i ((s.2.lifeArr line i + ushrtMax) % (ushrtMax + 1)) })

/-- The loop of `cache_read` : the way found. -/
def readWays (t : Tags) (line : ℕ) (hash : Key) : Option ℕ × Tags :=
  (List.range cacheWays).foldl (readWay line hash) (none, t)

/-- One iteration of the loop of `cache_write`, whose `way` is `none` for `-1`. -/
def writeWay (line : ℕ) (hash : Key) (s : Option ℕ × Tags) (i : ℕ) : Option ℕ × Tags :=
  match s with
  | (none, t) => (none, t)
  | (some way, t) =>
    if t.hashArr line i = hash then
      (none, { t with lifeArr := setAt t.lifeArr line i ushrtMax })
    else if t.lifeArr line i < t.lifeArr line way then (some i, t)
    else (some way, t)

/-- The loop of `cache_write` : the way to replace. -/
def writeWays (t : Tags) (line : ℕ) (hash : Key) : Option ℕ × Tags :=
  (List.range' 1 (cacheWays - 1)).foldl (writeWay line hash) (some 0, t)

/-- A way for a new block. -/
def setWay (t : Tags) (line way : ℕ) (hash : Key) : Tags :=
  ⟨setAt t.hashArr line way hash, setAt t.lifeArr line way ushrtMax⟩

/-- What `cache_write` does to the hashes and lives. -/
def write (t : Tags) (hash : Key) : Tags :=
  match t.writeWays (lineOf hash) hash with
  | (some way, t) => t.setWay (lineOf hash) way hash
  | (none, t) => t

/-- A way of its line holds the hash. -/
def Cached (t : Tags) (hash : Key) : Prop :=
  ∃ way < cacheWays, t.hashArr (lineOf hash) way = hash

instance (t : Tags) (hash : Key) : Decidable (t.Cached hash) :=
  inferInstanceAs (Decidable (∃ way < cacheWays, t.hashArr (lineOf hash) way = hash))

theorem foldl_readWay (line : ℕ) (hash : Key) : ∀ (l : List ℕ) (way : Option ℕ) (t : Tags),
    (l.foldl (readWay line hash) (way, t)).2.hashArr = t.hashArr ∧
    (∀ w, (l.foldl (readWay line hash) (way, t)).1 = some w →
      way = some w ∨ w ∈ l ∧ t.hashArr line w = hash) ∧
    ((l.foldl (readWay line hash) (way, t)).1 = none →
      way = none ∧ ∀ w ∈ l, t.hashArr line w ≠ hash)
  | [], way, t => ⟨rfl, fun w h => Or.inl h, fun h => ⟨h, by simp⟩⟩
  | i :: l, way, t => by
    rw [List.foldl_cons]
    by_cases hi : t.hashArr line i = hash
    · rw [show readWay line hash (way, t) i = (some i, t) from if_pos hi]
      obtain ⟨hhash, hsome, hnone⟩ := foldl_readWay line hash l (some i) t
      refine ⟨hhash, fun w hw => Or.inr ?_, fun h => ?_⟩
      · rcases hsome w hw with h | ⟨hmem, hw⟩
        · obtain rfl := Option.some.inj h
          exact ⟨List.mem_cons_self, hi⟩
        · exact ⟨List.mem_cons_of_mem _ hmem, hw⟩
      · exact absurd (hnone h).1 (by simp)
    · obtain ⟨hhash, hsome, hnone⟩ := foldl_readWay line hash l way { t with
        lifeArr := setAt t.lifeArr line i ((t.lifeArr line i + ushrtMax) % (ushrtMax + 1)) }
      rw [show readWay line hash (way, t) i = (way, { t with
        lifeArr := setAt t.lifeArr line i ((t.lifeArr line i + ushrtMax) % (ushrtMax + 1)) })
        from if_neg hi]
      refine ⟨hhash, fun w hw => ?_, fun h => ?_⟩
      · exact (hsome w hw).imp_right fun ⟨hmem, hw⟩ => ⟨List.mem_cons_of_mem _ hmem, hw⟩
      · obtain ⟨hway, hall⟩ := hnone h
        exact ⟨hway, List.forall_mem_cons.2 ⟨hi, hall⟩⟩

theorem readWays_hashArr (t : Tags) (line : ℕ) (hash : Key) :
    (t.readWays line hash).2.hashArr = t.hashArr :=
  (foldl_readWay line hash _ none t).1

theorem readWays_some {t : Tags} {hash : Key} {way : ℕ}
    (h : (t.readWays (lineOf hash) hash).1 = some way) :
    way < cacheWays ∧ t.hashArr (lineOf hash) way = hash := by
  rcases (foldl_readWay (lineOf hash) hash _ none t).2.1 way h with h | ⟨hmem, hway⟩
  · simp at h
  · exact ⟨List.mem_range.1 hmem, hway⟩

theorem readWays_none {t : Tags} {hash : Key}
    (h : (t.readWays (lineOf hash) hash).1 = none) : ¬t.Cached hash :=
  fun ⟨way, hlt, hway⟩ =>
    ((foldl_readWay (lineOf hash) hash _ none t).2.2 h).2 way (List.mem_range.2 hlt) hway

theorem writeWays_hashArr (t : Tags) (line : ℕ) (hash : Key) :
    (t.writeWays line hash).2.hashArr = t.hashArr := by
  have hfold : ∀ (l : List ℕ) (s : Option ℕ × Tags),
      (l.foldl (writeWay line hash) s).2.hashArr = s.2.hashArr := by
    intro l
    induction l with
    | nil => exact fun _ => rfl
    | cons i l ih =>
      intro s
      rw [List.foldl_cons, ih]
      rcases s with ⟨_ | way, t⟩
      · rfl
      · simp only [writeWay]
        split_ifs <;> rfl
  exact hfold _ _

end Tags

/-! ## The cache -/

/-- A block with `d` copied to its front. -/
def Block.copy (b : Block) (d : List UInt8) : Block :=
  ⟨overlay b.val (d.take 4096), by rw [length_overlay] <;> simp [b.property]⟩

theorem Block.take_copy (b : Block) {d : List UInt8} {n : ℕ} (h : n ≤ 4096) (hd : n ≤ d.length) :
    (b.copy d).val.take n = d.take n := by
  simp only [Block.copy, overlay]
  rw [List.take_append_of_le_length (by rw [List.length_take]; omega), List.take_take,
    min_eq_left h]

theorem Block.copy_val (b d : Block) : b.copy d.val = d := by
  have htake : d.val.take 4096 = d.val := List.take_of_length_le d.property.le
  refine Subtype.ext ?_
  simp only [copy, htake]
  exact overlay_of_length_le (by rw [b.property, d.property])

/-- The static `cache`. -/
structure Cache extends Tags where
  blockArr : ℕ → ℕ → Block

namespace Cache

/-- The cache at the start of the program : all zero. -/
def empty : Cache := ⟨⟨fun _ _ => Key.zero, fun _ _ => 0⟩, fun _ _ => Store.fillBlock 0⟩

/-- `cache_read`. -/
def cacheRead (c : Cache) (hash : Key) (size : ℕ) : Cache × List UInt8 :=
  match c.readWays (lineOf hash) hash with
  | (some way, t) => (⟨t, c.blockArr⟩, (c.blockArr (lineOf hash) way).val.take size)
  | (none, t) => (⟨t, c.blockArr⟩, [])

/-- `cache_write`. -/
def cacheWrite (c : Cache) (hash : Key) (buf : List UInt8) : Cache :=
  match c.writeWays (lineOf hash) hash with
  | (some way, t) => ⟨t.setWay (lineOf hash) way hash,
      setAt c.blockArr (lineOf hash) way ((c.blockArr (lineOf hash) way).copy buf)⟩
  | (none, t) => ⟨t, c.blockArr⟩

theorem cacheRead_toTags (c : Cache) (hash : Key) (size : ℕ) :
    (c.cacheRead hash size).1.toTags = (c.readWays (lineOf hash) hash).2 := by
  unfold cacheRead
  split <;> simp_all

theorem cacheRead_blockArr (c : Cache) (hash : Key) (size : ℕ) :
    (c.cacheRead hash size).1.blockArr = c.blockArr := by
  unfold cacheRead
  split <;> rfl

theorem cacheRead_hashArr (c : Cache) (hash : Key) (size : ℕ) :
    (c.cacheRead hash size).1.hashArr = c.hashArr := by
  rw [cacheRead_toTags, Tags.readWays_hashArr]

/-- A call copies from a way that holds the hash, or nothing if no way does. -/
theorem cacheRead_cases (c : Cache) (hash : Key) (size : ℕ) :
    (∃ way < cacheWays, c.hashArr (lineOf hash) way = hash ∧
      (c.cacheRead hash size).2 = (c.blockArr (lineOf hash) way).val.take size) ∨
    ¬c.Cached hash ∧ (c.cacheRead hash size).2 = [] := by
  unfold cacheRead
  rcases h : c.readWays (lineOf hash) hash with ⟨_ | way, t⟩
  · exact Or.inr ⟨Tags.readWays_none (by rw [h]), rfl⟩
  · obtain ⟨hlt, hway⟩ := Tags.readWays_some (by rw [h])
    exact Or.inl ⟨way, hlt, hway, rfl⟩

theorem cacheRead_eq_nil_iff (c : Cache) (hash : Key) {size : ℕ} (h : 0 < size) :
    (c.cacheRead hash size).2 = [] ↔ ¬c.Cached hash := by
  rcases c.cacheRead_cases hash size with ⟨way, hlt, hway, hread⟩ | ⟨hnot, hread⟩
  · refine iff_of_false (fun hnil => ?_) (not_not.2 ⟨way, hlt, hway⟩)
    have hlen := congrArg List.length (hread.symm.trans hnil)
    rw [List.length_take, (c.blockArr (lineOf hash) way).property, List.length_nil] at hlen
    omega
  · exact iff_of_true hread hnot

theorem cacheWrite_toTags (c : Cache) (hash : Key) (buf : List UInt8) :
    (c.cacheWrite hash buf).toTags = c.toTags.write hash := by
  unfold cacheWrite Tags.write
  split <;> simp_all

theorem cacheWrite_of_some {c : Cache} {hash : Key} {buf : List UInt8} {way : ℕ}
    (h : (c.writeWays (lineOf hash) hash).1 = some way) :
    (c.cacheWrite hash buf).hashArr = setAt c.hashArr (lineOf hash) way hash ∧
      (c.cacheWrite hash buf).blockArr = setAt c.blockArr (lineOf hash) way
        ((c.blockArr (lineOf hash) way).copy buf) := by
  have hhash := c.writeWays_hashArr (lineOf hash) hash
  unfold cacheWrite
  rcases hw : c.writeWays (lineOf hash) hash with ⟨way', t⟩
  rw [hw] at h hhash
  obtain rfl : way' = some way := h
  exact ⟨congrArg (setAt · (lineOf hash) way hash) hhash, rfl⟩

theorem cacheWrite_of_none {c : Cache} {hash : Key} {buf : List UInt8}
    (h : (c.writeWays (lineOf hash) hash).1 = none) :
    (c.cacheWrite hash buf).hashArr = c.hashArr ∧
      (c.cacheWrite hash buf).blockArr = c.blockArr := by
  have hhash := c.writeWays_hashArr (lineOf hash) hash
  unfold cacheWrite
  rcases hw : c.writeWays (lineOf hash) hash with ⟨way', t⟩
  rw [hw] at h hhash
  obtain rfl : way' = none := h
  exact ⟨hhash, rfl⟩

/-- A call replaces one way of the line of the hash, or none. -/
theorem cacheWrite_cases (c : Cache) (hash : Key) (buf : List UInt8) :
    (∃ way, (c.cacheWrite hash buf).hashArr = setAt c.hashArr (lineOf hash) way hash ∧
      (c.cacheWrite hash buf).blockArr = setAt c.blockArr (lineOf hash) way
        ((c.blockArr (lineOf hash) way).copy buf)) ∨
    (c.cacheWrite hash buf).hashArr = c.hashArr ∧
      (c.cacheWrite hash buf).blockArr = c.blockArr := by
  cases h : (c.writeWays (lineOf hash) hash).1 with
  | none => exact Or.inr (cacheWrite_of_none h)
  | some way => exact Or.inl ⟨way, cacheWrite_of_some h⟩

end Cache

/-- The cache with `WITH_CACHE`. -/
def fuseCache : BlockCache Cache := ⟨Cache.cacheRead, Cache.cacheWrite⟩

end Agilefs
