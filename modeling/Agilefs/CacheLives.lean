import Agilefs.FuseCache
import Agilefs.Runs

/-!
# Copies and lives in the cache

Runs of `cache_write` and `cache_read` on hashes other than zero, from the zero-initialised
`cache`. No hash should be held by two ways of its line, and a life should only grow in the way
that a `cache_write` stores into or refills, so that the way replaced is the one unused longest.

`Tags.writeWays_cases` is what the one loop of `cache_write` finds : the way that holds the hash,
but never way 0, where the loop does not look, or the first way with the smallest life.
`Tags.readWays_lifeArr` is what `cache_read` does to the lives, a decrement of an
`unsigned short` that is made of a zero too.

`runs_lives_iff` : a run is as it should be if and only if each `cache_read` finds no zero life
to decrement, and each `cache_write` of the hash in way 0 finds the smallest life there.
-/

namespace Agilefs

namespace Tags

/-! ## The two loops -/

/-- A decrement of an `unsigned short`. -/
theorem decrement_le_iff {life : ℕ} (h : life ≤ ushrtMax) :
    (life + ushrtMax) % (ushrtMax + 1) ≤ life ↔ 0 < life := by
  simp only [ushrtMax] at h ⊢
  omega

theorem readWay_lifeArr (line : ℕ) (hash : Key) (s : Option ℕ × Tags) (i line' w : ℕ) :
    (readWay line hash s i).2.lifeArr line' w =
      if line' = line ∧ w = i ∧ s.2.hashArr line w ≠ hash then
        (s.2.lifeArr line w + ushrtMax) % (ushrtMax + 1)
      else s.2.lifeArr line' w := by
  rw [readWay]
  by_cases hi : s.2.hashArr line i = hash
  · rw [if_pos hi, if_neg fun h => h.2.2 (h.2.1 ▸ hi)]
  · rw [if_neg hi]
    simp only [setAt_apply]
    by_cases hw : line' = line ∧ w = i
    · obtain ⟨rfl, rfl⟩ := hw
      rw [if_pos ⟨rfl, rfl⟩, if_pos ⟨rfl, rfl, hi⟩]
    · rw [if_neg hw, if_neg fun h => hw ⟨h.1, h.2.1⟩]

theorem foldl_readWay_lifeArr (line : ℕ) (hash : Key) (t : Tags) (line' w n : ℕ) :
    ((List.range n).foldl (readWay line hash) (none, t)).2.lifeArr line' w =
      if line' = line ∧ w < n ∧ t.hashArr line w ≠ hash then
        (t.lifeArr line w + ushrtMax) % (ushrtMax + 1)
      else t.lifeArr line' w := by
  induction n generalizing line' with
  | zero => simp
  | succ n ih =>
    have hhash := (foldl_readWay line hash (List.range n) none t).1
    rw [List.range_succ, List.foldl_append, List.foldl_cons, List.foldl_nil, readWay_lifeArr,
      hhash, ih, ih]
    -- way `n` was not met before
    by_cases hw : line' = line ∧ w = n
    · obtain ⟨rfl, rfl⟩ := hw
      simp
    · rw [if_neg fun h => hw ⟨h.1, h.2.1⟩]
      refine if_congr (and_congr_right fun hl => and_congr_left fun _ => ?_) rfl rfl
      have hne : w ≠ n := fun heq => hw ⟨hl, heq⟩
      omega

/-- `cache_read` decrements the lives of the line whose ways do not hold the hash. -/
theorem readWays_lifeArr (t : Tags) (line : ℕ) (hash : Key) (line' w : ℕ) :
    (t.readWays line hash).2.lifeArr line' w =
      if line' = line ∧ w < cacheWays ∧ t.hashArr line w ≠ hash then
        (t.lifeArr line w + ushrtMax) % (ushrtMax + 1)
      else t.lifeArr line' w :=
  foldl_readWay_lifeArr line hash t line' w cacheWays

theorem foldl_writeWay_none (line : ℕ) (hash : Key) (t : Tags) : ∀ l : List ℕ,
    l.foldl (writeWay line hash) (none, t) = (none, t)
  | [] => rfl
  | _ :: l => foldl_writeWay_none line hash t l

/-- An iteration of `cache_write` keeps the way with the smaller life. -/
theorem writeWay_of_ne {line : ℕ} {hash : Key} {t : Tags} {i : ℕ} (hi : t.hashArr line i ≠ hash)
    (way : ℕ) :
    ∃ next, writeWay line hash (some way, t) i = (some next, t) ∧
      (next = way ∨ next = i ∧ t.lifeArr line i < t.lifeArr line way) ∧
      t.lifeArr line next ≤ t.lifeArr line way ∧ t.lifeArr line next ≤ t.lifeArr line i := by
  rw [writeWay, if_neg hi]
  rcases lt_or_ge (t.lifeArr line i) (t.lifeArr line way) with hlife | hlife
  · exact ⟨i, if_pos hlife, Or.inr ⟨rfl, hlife⟩, hlife.le, le_rfl⟩
  · exact ⟨way, if_neg (not_lt.2 hlife), Or.inl rfl, le_rfl, hlife⟩

/-- The loop of `cache_write` over some ways. -/
theorem foldl_writeWay (line : ℕ) (hash : Key) (t : Tags) : ∀ (l : List ℕ) (way : ℕ),
    (∃ w, l.foldl (writeWay line hash) (some way, t) = (some w, t) ∧
      (∀ i ∈ l, t.hashArr line i ≠ hash) ∧
      (w = way ∨ w ∈ l ∧ t.lifeArr line w < t.lifeArr line way) ∧
      t.lifeArr line w ≤ t.lifeArr line way ∧ ∀ i ∈ l, t.lifeArr line w ≤ t.lifeArr line i) ∨
    ∃ i ∈ l, t.hashArr line i = hash ∧ l.foldl (writeWay line hash) (some way, t) =
      (none, { t with lifeArr := setAt t.lifeArr line i ushrtMax })
  | [], way => Or.inl ⟨way, rfl, by simp, Or.inl rfl, le_rfl, by simp⟩
  | i :: l, way => by
    rw [List.foldl_cons]
    by_cases hi : t.hashArr line i = hash
    · rw [writeWay, if_pos hi, foldl_writeWay_none]
      exact Or.inr ⟨i, List.mem_cons_self, hi, rfl⟩
    · obtain ⟨next, hnext, hway, hle, hlei⟩ := writeWay_of_ne hi way
      rw [hnext]
      refine (foldl_writeWay line hash t l next).imp ?_ ?_
      · rintro ⟨w, hfold, hall, hw, hwle, hmin⟩
        refine ⟨w, hfold, List.forall_mem_cons.2 ⟨hi, hall⟩, ?_, hwle.trans hle,
          List.forall_mem_cons.2 ⟨hwle.trans hlei, hmin⟩⟩
        -- the way found is `next`, or has a smaller life
        rcases hw with rfl | ⟨hmem, hlt⟩
        · rcases hway with rfl | ⟨rfl, hlt⟩
          · exact Or.inl rfl
          · exact Or.inr ⟨List.mem_cons_self, hlt⟩
        · exact Or.inr ⟨List.mem_cons_of_mem _ hmem, hlt.trans_le hle⟩
      · rintro ⟨j, hmem, hj⟩
        exact ⟨j, List.mem_cons_of_mem _ hmem, hj⟩

/-- `cache_write` stores into the first way with the smallest life, or refills a way other than
the first. -/
theorem write_cases (t : Tags) (hash : Key) :
    (∃ way < cacheWays, (t.writeWays (lineOf hash) hash).1 = some way ∧
      (t.write hash).hashArr = setAt t.hashArr (lineOf hash) way hash ∧
      (t.write hash).lifeArr = setAt t.lifeArr (lineOf hash) way ushrtMax ∧
      (∀ i, 1 ≤ i → i < cacheWays → t.hashArr (lineOf hash) i ≠ hash) ∧
      (way = 0 ∨ t.lifeArr (lineOf hash) way < t.lifeArr (lineOf hash) 0) ∧
      ∀ w < cacheWays, t.lifeArr (lineOf hash) way ≤ t.lifeArr (lineOf hash) w) ∨
    ∃ way, 1 ≤ way ∧ way < cacheWays ∧ (t.writeWays (lineOf hash) hash).1 = none ∧
      t.hashArr (lineOf hash) way = hash ∧ (t.write hash).hashArr = t.hashArr ∧
      (t.write hash).lifeArr = setAt t.lifeArr (lineOf hash) way ushrtMax := by
  have hmem : ∀ i, i ∈ List.range' 1 (cacheWays - 1) ↔ 1 ≤ i ∧ i < cacheWays := by
    intro i
    rw [List.mem_range'_1, cacheWays]
  rcases foldl_writeWay (lineOf hash) hash t (List.range' 1 (cacheWays - 1)) 0 with
    ⟨way, hfold, hall, hway, hle, hmin⟩ | ⟨way, hway, hhash, hfold⟩
  · have hways : t.writeWays (lineOf hash) hash = (some way, t) := hfold
    refine Or.inl ⟨way, ?_, by rw [hways], by rw [write, hways]; rfl, by rw [write, hways]; rfl,
      fun i h₁ h₂ => hall i ((hmem i).2 ⟨h₁, h₂⟩), hway.imp_right And.right, fun w hw => ?_⟩
    · rcases hway with rfl | ⟨hway, -⟩
      · decide
      · exact ((hmem way).1 hway).2
    · rcases Nat.eq_zero_or_pos w with rfl | hpos
      · exact hle
      · exact hmin w ((hmem w).2 ⟨hpos, hw⟩)
  · have hways : t.writeWays (lineOf hash) hash =
        (none, { t with lifeArr := setAt t.lifeArr (lineOf hash) way ushrtMax }) := hfold
    exact Or.inr ⟨way, ((hmem way).1 hway).1, ((hmem way).1 hway).2, by rw [hways], hhash,
      by rw [write, hways], by rw [write, hways]⟩

/-! ## One call -/

/-- No hash other than zero is held by two ways of its line. -/
def Single (t : Tags) : Prop :=
  ∀ hash ≠ Key.zero, ∀ way < cacheWays, ∀ way' < cacheWays,
    t.hashArr (lineOf hash) way = hash → t.hashArr (lineOf hash) way' = hash → way = way'

/-- The lives are `unsigned short`s. -/
def Bounded (t : Tags) : Prop := ∀ line way, t.lifeArr line way ≤ ushrtMax

/-- A `cache_write` of the hash stores into the way, or refills it. -/
def Written (t : Tags) (hash : Key) (way : ℕ) : Prop :=
  (t.writeWays (lineOf hash) hash).1 = some way ∨
    (t.writeWays (lineOf hash) hash).1 = none ∧ t.hashArr (lineOf hash) way = hash

/-- No way has a smaller life than way 0 if it holds the hash. -/
def FirstSmallest (t : Tags) (hash : Key) : Prop :=
  t.hashArr (lineOf hash) 0 = hash →
    ∀ w < cacheWays, t.lifeArr (lineOf hash) 0 ≤ t.lifeArr (lineOf hash) w

/-- The ways of its line that do not hold the hash have lives to lose. -/
def Alive (t : Tags) (hash : Key) : Prop :=
  ∀ w < cacheWays, t.hashArr (lineOf hash) w ≠ hash → 0 < t.lifeArr (lineOf hash) w

variable {t : Tags} {hash : Key}

theorem Bounded.write (h : t.Bounded) (hash : Key) : (t.write hash).Bounded := by
  obtain ⟨way, hlife⟩ : ∃ way, (t.write hash).lifeArr =
      setAt t.lifeArr (lineOf hash) way ushrtMax := by
    rcases t.write_cases hash with ⟨way, -, -, -, hlife, -⟩ | ⟨way, -, -, -, -, -, hlife⟩
    · exact ⟨way, hlife⟩
    · exact ⟨way, hlife⟩
  intro line' way'
  rw [hlife, setAt_apply]
  split_ifs
  · exact le_rfl
  · exact h line' way'

theorem Bounded.read (h : t.Bounded) (line : ℕ) (hash : Key) :
    (t.readWays line hash).2.Bounded := by
  intro line' way
  rw [readWays_lifeArr]
  split_ifs
  · simp only [ushrtMax]
    omega
  · exact h line' way

/-- `cache_write` raises the life of the way that it stores into or refills only. -/
theorem written_of_lt {line way : ℕ} (h : t.lifeArr line way < (t.write hash).lifeArr line way) :
    line = lineOf hash ∧ t.Written hash way := by
  rcases t.write_cases hash with
    ⟨way', -, hways, -, hlife, -⟩ | ⟨way', -, -, hways, hhash, -, hlife⟩
  · rw [hlife, setAt_apply] at h
    split_ifs at h with heq
    · exact ⟨heq.1, Or.inl (heq.2 ▸ hways)⟩
    · exact absurd h (lt_irrefl _)
  · rw [hlife, setAt_apply] at h
    split_ifs at h with heq
    · exact ⟨heq.1, Or.inr ⟨hways, heq.2 ▸ hhash⟩⟩
    · exact absurd h (lt_irrefl _)

/-- The way that `cache_write` replaces has the smallest life of its line. -/
theorem smallest_of_writeWays {way : ℕ} (h : (t.writeWays (lineOf hash) hash).1 = some way) :
    ∀ w < cacheWays, t.lifeArr (lineOf hash) way ≤ t.lifeArr (lineOf hash) w := by
  rcases t.write_cases hash with ⟨way', -, hways, -, -, -, -, hmin⟩ | ⟨way', -, -, hways, -⟩
  · rw [hways] at h
    exact Option.some.inj h ▸ hmin
  · rw [hways] at h
    cases h

/-- A hash in way 0 is stored there again if no life is smaller. -/
theorem Single.write (h : t.Single) (hfirst : t.FirstSmallest hash) :
    (t.write hash).Single := by
  rcases t.write_cases hash with
    ⟨way, hlt, -, hhashArr, -, hothers, hway, -⟩ | ⟨way, -, -, -, -, hhashArr, -⟩
  · intro hash' hne w hw w' hw' hhash hhash'
    rw [hhashArr, setAt_apply] at hhash hhash'
    by_cases heq : hash' = hash
    · subst heq
      -- the hash is now in the way stored into and in no other
      have hstored : ∀ v < cacheWays, (if lineOf hash' = lineOf hash' ∧ v = way then hash' else
          t.hashArr (lineOf hash') v) = hash' → v = way := by
        intro v hv hhash
        by_contra hvway
        rw [if_neg fun h => hvway h.2] at hhash
        rcases Nat.eq_zero_or_pos v with rfl | hpos
        · rcases hway with rfl | hless
          · exact hvway rfl
          · exact absurd (hfirst hhash way hlt) (not_le.2 hless)
        · exact hothers v hpos hv hhash
      rw [hstored w hw hhash, hstored w' hw' hhash']
    · have hold : ∀ v, (if lineOf hash' = lineOf hash ∧ v = way then hash else
          t.hashArr (lineOf hash') v) = hash' → t.hashArr (lineOf hash') v = hash' := by
        intro v hv
        split_ifs at hv
        · exact absurd hv.symm heq
        · exact hv
      exact h hash' hne w hw w' hw' (hold w hhash) (hold w' hhash')
  · rw [Single, hhashArr]
    exact h

/-- A hash in way 0 is stored a second time if a life is smaller. -/
theorem Single.firstSmallest (h : t.Single) (hne : hash ≠ Key.zero)
    (h' : (t.write hash).Single) : t.FirstSmallest hash := by
  intro hhash
  rcases t.write_cases hash with
    ⟨way, hlt, -, hhashArr, -, -, -, hmin⟩ | ⟨way, hpos, hlt, -, hway, -, -⟩
  · rcases Nat.eq_zero_or_pos way with rfl | hpos
    · exact hmin
    · have hzero := h' hash hne 0 (by omega) way hlt
        (by rw [hhashArr, setAt_apply, if_neg (by omega), hhash])
        (by rw [hhashArr, setAt_apply, if_pos ⟨rfl, rfl⟩])
      omega
  · have hzero := h hash hne 0 (by omega) way hlt hhash hway
    omega

theorem Single.read (h : t.Single) (line : ℕ) (hash : Key) : (t.readWays line hash).2.Single := by
  rw [Single, readWays_hashArr]
  exact h

/-- `cache_read` raises no life if and only if no life of zero is decremented. -/
theorem Bounded.read_le_iff (h : t.Bounded) :
    (∀ line way, (t.readWays (lineOf hash) hash).2.lifeArr line way ≤ t.lifeArr line way) ↔
      t.Alive hash := by
  constructor
  · intro hle w hw hhash
    have hlife := hle (lineOf hash) w
    rw [readWays_lifeArr, if_pos ⟨rfl, hw, hhash⟩] at hlife
    exact (decrement_le_iff (h _ _)).1 hlife
  · intro halive line way
    rw [readWays_lifeArr]
    split_ifs with hway
    · obtain ⟨rfl, hlt, hhash⟩ := hway
      exact (decrement_le_iff (h _ _)).2 (halive way hlt hhash)
    · exact le_rfl

end Tags

namespace CacheLives

/-! ## Runs of the two calls -/

/-- A call in a run, on a hash other than zero and a buffer no larger than a block. -/
inductive Call
  | write (hash : {h : Key // h ≠ Key.zero}) (buf : {d : List UInt8 // d.length ≤ 4096})
  | read (hash : {h : Key // h ≠ Key.zero}) (size : {n : ℕ // n ≤ 4096})

/-- The cache after a call. -/
def step (c : Cache) : Call → Option Cache
  | .write hash buf => some (c.cacheWrite hash.val buf.val)
  | .read hash size => some (c.cacheRead hash.val size.val).1

/-- A life grows in the way that a `cache_write` stores into or refills only, and the way stored
into had the smallest life of its line. -/
def Aged (c : Cache) : Call → Cache → Prop
  | .write hash _, c' =>
    (∀ line way, c.lifeArr line way < c'.lifeArr line way →
      line = lineOf hash ∧ c.Written hash way) ∧
    ∀ way, (c.writeWays (lineOf hash) hash).1 = some way →
      ∀ w < cacheWays, c.lifeArr (lineOf hash) way ≤ c.lifeArr (lineOf hash) w
  | .read _ _, c' => ∀ line way, c'.lifeArr line way ≤ c.lifeArr line way

/-- A `cache_write` of the hash in way 0 finds the smallest life there, and a `cache_read` finds
no zero life to decrement. -/
def Fresh (c : Cache) : Call → Prop
  | .write hash _ => c.FirstSmallest hash
  | .read hash _ => c.Alive hash

/-- What each call keeps while no hash is stored twice. -/
structure Inv (c : Cache) : Prop where
  single : c.Single
  bounded : c.Bounded

theorem inv_empty : Inv Cache.empty :=
  ⟨fun _ hne _ _ _ _ h => absurd h.symm hne, fun _ _ => Nat.zero_le _⟩

theorem Inv.step_fresh {c : Cache} {call : Call} (h : Inv c) (hfresh : Fresh c call) :
    ∃ c', step c call = some c' ∧ Aged c call c' ∧ Inv c' := by
  cases call with
  | write hash buf =>
    have htags := c.cacheWrite_toTags hash.val buf.val
    refine ⟨_, rfl, ⟨fun line way hlt => ?_, fun way => Tags.smallest_of_writeWays⟩, ?_, ?_⟩
    · exact Tags.written_of_lt (htags ▸ hlt)
    · rw [htags]
      exact h.single.write hfresh
    · rw [htags]
      exact h.bounded.write hash
  | read hash size =>
    have htags := c.cacheRead_toTags hash.val size.val
    refine ⟨_, rfl, fun line way => ?_, ?_, ?_⟩
    · rw [htags]
      exact h.bounded.read_le_iff.2 hfresh line way
    · rw [htags]
      exact h.single.read _ hash
    · rw [htags]
      exact h.bounded.read _ hash

theorem Inv.fresh {c c' : Cache} {call : Call} (h : Inv c) (hstep : step c call = some c')
    (haged : Aged c call c') (h' : c'.Single) : Fresh c call := by
  cases call with
  | write hash buf =>
    obtain rfl := Option.some.inj hstep
    rw [c.cacheWrite_toTags] at h'
    exact h.single.firstSmallest hash.property h'
  | read hash size =>
    obtain rfl := Option.some.inj hstep
    refine h.bounded.read_le_iff.1 fun line way => ?_
    rw [← c.cacheRead_toTags hash.val size.val]
    exact haged line way

/-- In a run no hash is held twice and lives only grow where they should, if and only if each call
finds the lives it needs. -/
theorem runs_lives_iff (calls : List Call) :
    Runs.Always step (fun c => c.Single) Aged Cache.empty calls ↔
      Runs.Each step Fresh Cache.empty calls :=
  Runs.always_iff_each_of_step (I := Inv) (fun _ h => h.single)
    (fun _ _ h hfresh => h.step_fresh hfresh)
    (fun _ _ _ h hstep haged h' => h.fresh hstep haged h') inv_empty

/-- A hash other than zero. -/
def ones : {h : Key // h ≠ Key.zero} := ⟨⟨List.replicate 16 1, rfl⟩, by decide⟩

/-- A hash written twice is held by the ways 0 and 1, and the first read decrements a zero. -/
theorem lives_counterexample :
    ¬Runs.Always step (fun c => c.Single) Aged Cache.empty
      [.write ones ⟨[], by decide⟩, .write ones ⟨[], by decide⟩] ∧
    ¬Runs.Always step (fun c => c.Single) Aged Cache.empty [.read ones ⟨1, by decide⟩] := by
  constructor
  · rintro ⟨-, c, hc, -, -, c', hc', haged, hlast⟩
    have hfresh : Fresh Cache.empty (.write ones ⟨[], by decide⟩) :=
      fun h => absurd h (by decide)
    obtain ⟨c₁, hc₁, -, hinv⟩ := inv_empty.step_fresh hfresh
    obtain rfl : c₁ = c := Option.some.inj (hc₁.symm.trans hc)
    obtain rfl := Option.some.inj hc
    have hfirst := hinv.fresh hc' haged hlast
    exact absurd (hfirst (by decide) 1 (by decide)) (by decide)
  · rintro ⟨-, c, hc, haged, hlast⟩
    have halive := inv_empty.fresh hc haged hlast
    exact absurd (halive 0 (by decide) (by decide)) (by decide)

end CacheLives

end Agilefs
