import Agilefs.ClientFiles
import Agilefs.Durable

/-!
# The client over the chunk files

The chunk store keeps its blocks as long as nothing is deleted that is absent, room is found for
what is put and no count overflows : `Store.checked` is the chunk store with these checks before its
calls. What it does a shelf of blocks does too (`checked_shelf`), and so the client does the same
over both (`Client.step_simulates`).

`mounts_serve_fileSys` : over the chunk files, a run of requests that passes the checks returns what
it should in a file system of byte arrays, however often the client is unmounted and mounted
again.
-/

namespace Agilefs

open CInt Posix Function ByteFile

variable {B B' P Q : Type*}

/-! ## Stores that do the same -/

/-- The client with another store. -/
abbrev Client.withStore (c : Client B P) (t : B') : Client B' P := ⟨c.os, c.contexts, c.nextFh, t⟩

/-- In related states a read inside a block yields the same, and what a call to `st` does that is
defined, the call to `st'` does too. -/
structure BlockStore.Simulates (st : BlockStore B) (st' : BlockStore B') (R : B → B' → Prop) :
    Prop where
  read : ∀ s t k n (off : ℕ), R s t → off + n ≤ 4096 →
    st'.blockRead t k n off = st.blockRead s k n off
  put : ∀ s t k d s' ret, R s t → st.putNewChunk s k d = some (s', ret) →
    ∃ t', st'.putNewChunk t k d = some (t', ret) ∧ R s' t'
  del : ∀ s t k s' ret, R s t → st.delChunk s k = some (s', ret) →
    ∃ t', st'.delChunk t k = some (t', ret) ∧ R s' t'

section Simulates

variable {st : BlockStore B} {st' : BlockStore B'} {R : B → B' → Prop}

/-- The blocks of a range, none of which is asked for too much. -/
theorem BlockStore.Simulates.readsBlocks (hsim : st.Simulates st' R) {s : B} {t : B'} (hR : R s t)
    {f b : ByteFile} {offset stop : ℤ}
    (hfit : offset % 4096 = 0 ∨ offset % 4096 + (stop - offset) ≤ 4096)
    (h : ReadsBlocks st' t f b offset stop) : ReadsBlocks st s f b offset stop := by
  intro i hle hlt hat
  obtain ⟨hentry, hread⟩ := h i hle hlt hat
  have hcast : i % 4096 = ((i % 4096).toNat : ℤ) := by omega
  have hpart : (i % 4096).toNat + asked stop i ≤ 4096 := by
    rw [asked_eq_chunkLen hfit hat]
    unfold Client.chunkLen
    omega
  refine ⟨hentry, ?_⟩
  rw [hcast, ← hsim.read s t _ _ _ hR hpart, ← hcast, hread]

namespace Client

/-- One iteration of `fuse_write`. -/
theorem writeBody_simulates (hsim : st.Simulates st' R) {doHash : List UInt8 → Key} {io : Io}
    {fd : ℤ} {buf : List UInt8} {offset : ℤ} {w w' : WriteState B P} {t : B'} (hR : R w.store t)
    (h : writeBody doHash st io fd buf offset w = some w') :
    ∃ t', writeBody doHash st' io fd buf offset ⟨w.os, t, w.hashKey, w.i, w.ok⟩ =
      some ⟨w'.os, t', w'.hashKey, w'.i, w'.ok⟩ ∧ R w'.store t' := by
  have hdata : ∀ key n, blockData st' t key buf offset w.i n =
      blockData st w.store key buf offset w.i n := by
    intro key n
    have hread := hsim.read w.store t key 4096 0 hR (by decide)
    rw [Nat.cast_zero] at hread
    simp only [blockData, hread]
  simp only [writeBody] at h
  obtain ⟨⟨s₁, r₁⟩, hdel, hrest⟩ := Option.bind_eq_some_iff.1 h
  obtain ⟨t₁, hdel', hR₁⟩ := hsim.del _ t _ _ _ hR hdel
  simp only [writeBody, hdata, hdel', Option.bind_some]
  split_ifs at hrest with hres
  · obtain rfl := Option.some.inj hrest
    exact ⟨t₁, if_pos hres, hR₁⟩
  · obtain ⟨⟨s', r⟩, hput, rfl⟩ := Option.map_eq_some_iff.1 hrest
    obtain ⟨t', hput', hR'⟩ := hsim.put _ t₁ _ _ _ _ hR₁ hput
    rw [if_neg hres, hput']
    refine ⟨t', ?_, ?_⟩
    · rw [Option.map_some]
      split_ifs <;> rfl
    · split_ifs <;> exact hR'

/-- The loop of `fuse_write`. -/
theorem writeLoop_simulates (hsim : st.Simulates st' R) {doHash : List UInt8 → Key} {io : Io}
    {fd : ℤ} {buf : List UInt8} {offset : ℤ} {w w' : WriteState B P} {t : B'} (hR : R w.store t)
    (h : writeLoop doHash st io fd buf offset w = some w') :
    ∃ t', writeLoop doHash st' io fd buf offset ⟨w.os, t, w.hashKey, w.i, w.ok⟩ =
      some ⟨w'.os, t', w'.hashKey, w'.i, w'.ok⟩ ∧ R w'.store t' := by
  obtain ⟨u', hrun, t', rfl, hR'⟩ : ∃ u', writeLoop doHash st' io fd buf offset
      ⟨w.os, t, w.hashKey, w.i, w.ok⟩ = some u' ∧
      ∃ t', u' = ⟨w'.os, t', w'.hashKey, w'.i, w'.ok⟩ ∧ R w'.store t' := by
    refine Loop.run_simulates
      (R := fun w (u : WriteState B' P) => ∃ t, u = ⟨w.os, t, w.hashKey, w.i, w.ok⟩ ∧ R w.store t)
      ?_ ?_ ⟨t, rfl, hR⟩ h
    · rintro w _ ⟨t, rfl, -⟩
      rfl
    · rintro w _ w₁ ⟨t, rfl, hR⟩ - hbody
      obtain ⟨t₁, hbody', hR₁⟩ := writeBody_simulates hsim hR hbody
      exact ⟨_, hbody', t₁, rfl, hR₁⟩
  exact ⟨t', hrun, hR'⟩

/-- The loop of `fuse_truncate` and `fuse_ftruncate`. -/
theorem truncLoop_simulates (hsim : st.Simulates st' R) {os : Os P} {io : Io} {fd stSize : ℤ}
    {u u' : TruncState B} {t : B'} (hR : R u.store t)
    (h : truncLoop st os io fd stSize u = some u') :
    ∃ t', truncLoop st' os io fd stSize ⟨t, u.hashKey, u.i⟩ = some ⟨t', u'.hashKey, u'.i⟩ ∧
      R u'.store t' := by
  obtain ⟨x', hrun, t', rfl, hR'⟩ : ∃ x', truncLoop st' os io fd stSize ⟨t, u.hashKey, u.i⟩ =
      some x' ∧ ∃ t', x' = ⟨t', u'.hashKey, u'.i⟩ ∧ R u'.store t' := by
    refine Loop.run_simulates
      (R := fun u (x : TruncState B') => ∃ t, x = ⟨t, u.hashKey, u.i⟩ ∧ R u.store t)
      ?_ ?_ ⟨t, rfl, hR⟩ h
    · rintro u _ ⟨t, rfl, -⟩
      rfl
    · rintro u _ u₁ ⟨t, rfl, hR⟩ - hbody
      obtain ⟨⟨s₁, r⟩, hdel, rfl⟩ := Option.map_eq_some_iff.1 hbody
      obtain ⟨t₁, hdel', hR₁⟩ := hsim.del _ t _ _ _ hR hdel
      exact ⟨_, by simp only [truncBody, hdel', Option.map_some], t₁, rfl, hR₁⟩
  exact ⟨t', hrun, hR'⟩

/-- `fuse_truncate`. -/
theorem fuseTruncate_simulates (hsim : st.Simulates st' R) {c c' : Client B P} {t : B'}
    (hR : R c.store t) {io : Io} {p : P} {size : ℤ} {ret : Option ℤ}
    (h : fuseTruncate st c io p size = some (c', ret)) :
    ∃ t', fuseTruncate st' (c.withStore t) io p size = some (c'.withStore t', ret) ∧
      R c'.store t' := by
  simp only [fuseTruncate] at h
  split_ifs at h with hfd
  · obtain ⟨rfl, rfl⟩ := Prod.mk.inj (Option.some.inj h)
    exact ⟨t, by simp only [fuseTruncate, withStore, if_pos hfd], hR⟩
  · cases hread : (c.os.openExisting p).1.pread (io.pread 0) (c.os.openExisting p).2 8 0 with
    | none =>
      simp only [hread] at h
      obtain ⟨rfl, rfl⟩ := Prod.mk.inj (Option.some.inj h)
      exact ⟨t, by simp only [fuseTruncate, withStore, if_neg hfd, hread], hR⟩
    | some d =>
      simp only [hread] at h
      obtain ⟨u, hloop, heq⟩ := Option.map_eq_some_iff.1 h
      obtain ⟨rfl, rfl⟩ := Prod.mk.inj heq
      obtain ⟨t', hloop', hR'⟩ := truncLoop_simulates hsim (t := t) hR hloop
      refine ⟨t', ?_, hR'⟩
      simp only [fuseTruncate, withStore, if_neg hfd, hread, hloop', Option.map_some]

/-- A request that changes something. -/
theorem step_simulates [DecidableEq P] (hsim : st.Simulates st' R) {doHash : List UInt8 → Key}
    {c c' : Client B P} {t : B'} (hR : R c.store t) {op : FuseOp P} {ret : Option ℤ}
    (h : c.step doHash st op = some (c', ret)) :
    ∃ t', (c.withStore t).step doHash st' op = some (c'.withStore t', ret) ∧ R c'.store t' := by
  cases op with
  | mknod p =>
    simp only [step, fuseMknod, Option.some_inj] at h
    refine ⟨t, ?_, ?_⟩
    · simp only [step, fuseMknod, withStore, Option.some_inj]
      split_ifs at h ⊢ <;> (obtain ⟨rfl, rfl⟩ := Prod.mk.inj h; rfl)
    · split_ifs at h <;> (obtain ⟨rfl, -⟩ := Prod.mk.inj h; exact hR)
  | create p =>
    simp only [step, fuseCreate, Option.some_inj] at h
    refine ⟨t, ?_, ?_⟩
    · simp only [step, fuseCreate, withStore, Option.some_inj]
      split_ifs at h ⊢ <;> (obtain ⟨rfl, rfl⟩ := Prod.mk.inj h; rfl)
    · split_ifs at h <;> (obtain ⟨rfl, -⟩ := Prod.mk.inj h; exact hR)
  | opens p junk =>
    simp only [step, fuseOpen, Option.some_inj] at h
    refine ⟨t, ?_, ?_⟩
    · simp only [step, fuseOpen, withStore, Option.some_inj]
      split_ifs at h ⊢ <;> (obtain ⟨rfl, rfl⟩ := Prod.mk.inj h; rfl)
    · split_ifs at h <;> (obtain ⟨rfl, -⟩ := Prod.mk.inj h; exact hR)
  | write fh buf offset junk =>
    simp only [step, fuseWrite] at h
    obtain ⟨ctx, hctx, hrest⟩ := Option.bind_eq_some_iff.1 h
    obtain ⟨w, hloop, heq⟩ := Option.map_eq_some_iff.1 hrest
    obtain ⟨t', hloop', hR'⟩ := writeLoop_simulates hsim (t := t) hR hloop
    refine ⟨t', ?_, ?_⟩
    · simp only [step, fuseWrite, withStore, hctx, Option.bind_some, hloop', Option.map_some]
      split_ifs at heq ⊢ <;> (obtain ⟨rfl, rfl⟩ := Prod.mk.inj heq; rfl)
    · split_ifs at heq <;> (obtain ⟨rfl, -⟩ := Prod.mk.inj heq; exact hR')
  | truncate p size => exact fuseTruncate_simulates hsim hR h
  | ftruncate fh size =>
    simp only [step, fuseFtruncate] at h
    obtain ⟨ctx, hctx, hrest⟩ := Option.bind_eq_some_iff.1 h
    obtain ⟨u, hloop, heq⟩ := Option.map_eq_some_iff.1 hrest
    obtain ⟨rfl, rfl⟩ := Prod.mk.inj heq
    obtain ⟨t', hloop', hR'⟩ := truncLoop_simulates hsim (t := t) hR hloop
    refine ⟨t', ?_, hR'⟩
    simp only [step, fuseFtruncate, withStore, hctx, Option.bind_some, hloop', Option.map_some]
  | fsync fh =>
    obtain ⟨ctx, hctx, heq⟩ := Option.map_eq_some_iff.1 h
    obtain ⟨rfl, rfl⟩ := Prod.mk.inj heq
    exact ⟨t, by simp only [step, fuseFsync, withStore, hctx, Option.map_some], hR⟩
  | release fh =>
    obtain ⟨ctx, hctx, heq⟩ := Option.map_eq_some_iff.1 h
    refine ⟨t, ?_, ?_⟩
    · simp only [step, fuseRelease, withStore, hctx, Option.map_some, Option.some_inj]
      simp only at heq
      split_ifs at heq ⊢ <;> (obtain ⟨rfl, rfl⟩ := Prod.mk.inj heq; rfl)
    · simp only at heq
      split_ifs at heq <;> (obtain ⟨rfl, -⟩ := Prod.mk.inj heq; exact hR)
  | rename p q =>
    simp only [step, fuseRename, Option.some_inj] at h
    refine ⟨t, ?_, ?_⟩
    · simp only [step, fuseRename, withStore, Option.some_inj]
      split at h <;> (obtain ⟨rfl, rfl⟩ := Prod.mk.inj h; simp_all)
    · split at h <;> (obtain ⟨rfl, -⟩ := Prod.mk.inj h; exact hR)
  | unlink p =>
    obtain ⟨⟨c₁, r₁⟩, htrunc, heq⟩ := Option.map_eq_some_iff.1 h
    obtain ⟨t', htrunc', hR'⟩ := fuseTruncate_simulates hsim (t := t) hR htrunc
    refine ⟨t', ?_, ?_⟩
    · simp only [step, fuseUnlink, htrunc', Option.map_some, Option.some_inj]
      simp only at heq
      split at heq <;> (obtain ⟨rfl, rfl⟩ := Prod.mk.inj heq; simp_all [withStore])
    · simp only at heq
      split at heq <;> (obtain ⟨rfl, -⟩ := Prod.mk.inj heq; exact hR')

/-- What the calls to the store keep, a request keeps. -/
theorem step_keeps [DecidableEq P] {I : B → Prop}
    (hput : ∀ s k d s' ret, I s → st.putNewChunk s k d = some (s', ret) → I s')
    (hdel : ∀ s k s' ret, I s → st.delChunk s k = some (s', ret) → I s')
    {doHash : List UInt8 → Key} {c c' : Client B P} {op : FuseOp P} {ret : Option ℤ}
    (h : c.step doHash st op = some (c', ret)) (hI : I c.store) : I c'.store := by
  have hsim : st.Simulates st fun s t => s = t ∧ I s := by
    refine ⟨?_, ?_, ?_⟩
    · rintro s _ k n off ⟨rfl, -⟩ -
      rfl
    · rintro s _ k d s' ret ⟨rfl, hs⟩ h
      exact ⟨s', h, rfl, hput s k d s' ret hs h⟩
    · rintro s _ k s' ret ⟨rfl, hs⟩ h
      exact ⟨s', h, rfl, hdel s k s' ret hs h⟩
  obtain ⟨-, -, -, hI'⟩ := step_simulates hsim (t := c.store) ⟨rfl, hI⟩ h
  exact hI'

end Client

end Simulates

/-! ## The chunk store with checks -/

/-- The block `d` is the content of its hash, which is not that of a hole. -/
def Names (doHash : List UInt8 → Key) (content : Key → Block) (d : List UInt8) : Prop :=
  doHash d ≠ Key.zero ∧ (content (doHash d)).val = d

instance (doHash : List UInt8 → Key) (content : Key → Block) (d : List UInt8) :
    Decidable (Names doHash content d) :=
  decidable_of_iff (doHash d ≠ Key.zero ∧ (content (doHash d)).val == d) (by simp [Names])

/-- Blocks that are the contents of their hashes have no collisions. -/
theorem names_injOn (doHash : List UInt8 → Key) (content : Key → Block) :
    {d | Names doHash content d}.InjOn doHash := by
  intro d hd d' hd' heq
  rw [← hd.2, ← hd'.2, heq]

namespace Store

instance (s : Store Key Q) (key : Key) : Decidable (s.CountFits key) :=
  inferInstanceAs (Decidable (∀ bd ∈ s.db key, -2 ^ 31 ≤ bd.refCount ∧ bd.refCount + 1 < 2 ^ 31))

/-- A put that finds room for the block of its key. -/
def Puttable (doHash : List UInt8 → Key) (content : Key → Block) (s : Store Key Q) (key : Key)
    (d : List UInt8) : Prop :=
  doHash d = key ∧ Names doHash content d ∧
    (s.db key = none → s.cfi.getProperChunkFile ≠ -1) ∧ s.CountFits key

instance (doHash : List UInt8 → Key) (content : Key → Block) (s : Store Key Q) (key : Key)
    (d : List UInt8) : Decidable (Puttable doHash content s key d) :=
  inferInstanceAs (Decidable (_ ∧ _ ∧ (_ → _) ∧ _))

/-- The chunk store, where a put must be `Puttable` and what is deleted must be present. -/
def checked (whd : WriteHashDb Key) (doHash : List UInt8 → Key) (content : Key → Block) :
    BlockStore (Store Key Q) where
  blockRead := (blocks whd {}).blockRead
  putNewChunk s key d :=
    if Puttable doHash content s key d then (blocks whd {}).putNewChunk s key d else none
  delChunk s key := if (s.db key).isSome then (blocks whd {}).delChunk s key else none

variable {whd : WriteHashDb Key} {doHash : List UInt8 → Key} {content : Key → Block}

/-- A call that passes its check. -/
theorem checked_blocks :
    (checked whd doHash content).Simulates (blocks whd {} : BlockStore (Store Key Q)) Eq := by
  refine ⟨?_, ?_, ?_⟩
  · rintro s _ k n off rfl -
    rfl
  · rintro s _ k d s' ret rfl h
    simp only [checked] at h
    split_ifs at h
    exact ⟨s', h, rfl⟩
  · rintro s _ k s' ret rfl h
    simp only [checked] at h
    split_ifs at h
    exact ⟨s', h, rfl⟩

variable [DecidableEq Q] {doc : List (XmlEvent Q)} {s : Store Key Q} {t : Shelf × List StoreCall}

omit [DecidableEq Q] in
theorem counts_isSome (s : Store Key Q) (k : Key) : (s.counts k).isSome = (s.db k).isSome :=
  Option.isSome_map

/-- A put that passes its check is one of a block under its hash, which is a regular call. -/
theorem checked_put {k : Key} {d : List UInt8} {s' : Store Key Q} {ret : ℤ}
    (h : (checked whd doHash content).putNewChunk s k d = some (s', ret))
    (doc : List (XmlEvent Q)) :
    doHash d = k ∧ Names doHash content d ∧ (content k).val = d ∧
      Regular content s (.put {} k (content k)) ∧
      s.durableStep whd doc (.put {} k (content k)) = some (s', .code ret) := by
  simp only [checked] at h
  split_ifs at h with hok
  obtain ⟨rfl, hnames, hroom, hfits⟩ := hok
  have hd : (content (doHash d)).val = d := hnames.2
  refine ⟨rfl, hnames, hd, ⟨rfl, rfl, rfl, hroom, hfits⟩, ?_⟩
  have hput : s.putNewChunk whd {} (doHash d) d fspSize = some (s', ret) := h
  rw [durableStep, hd, hput, Option.map_some]

omit [DecidableEq Q] in
/-- A deletion that passes its check changes nothing. -/
theorem checked_del {k : Key} {s' : Store Key Q} {ret : ℤ}
    (h : (checked whd doHash content).delChunk s k = some (s', ret)) : s' = s ∧ ret = 0 := by
  simp only [checked] at h
  split_ifs at h with hpresent
  obtain ⟨bd, hbd⟩ := Option.isSome_iff_exists.1 hpresent
  have hdel : (blocks whd {}).delChunk s k = some (s, 0) := delChunk_present (o := {}) rfl hbd
  rw [hdel, Option.some_inj, Prod.mk.injEq] at h
  exact ⟨h.1.symm, h.2.symm⟩

/-- The shelf has the blocks of the store, which has put only blocks that are the contents of their
hashes. -/
structure Shelved (doHash : List UInt8 → Key) (content : Key → Block) (doc : List (XmlEvent Q))
    (s : Store Key Q) (t : Shelf × List StoreCall) : Prop where
  durable : s.Durable content doc
  shelf : ∀ k, t.1 k = (s.counts k).map fun _ => content k
  named : ∀ k, (s.counts k).isSome →
    doHash (content k).val = k ∧ Names doHash content (content k).val
  puts : ∀ z ∈ puts t.2, Names doHash content z.2

omit [DecidableEq Q] in
/-- Another store with the same blocks. -/
theorem Shelved.congr (h : s.Shelved doHash content doc t) {s' : Store Key Q}
    (hdur : s'.Durable content doc) (hcounts : s'.counts = s.counts) :
    s'.Shelved doHash content doc t :=
  ⟨hdur, by rw [hcounts]; exact h.shelf, by rw [hcounts]; exact h.named, h.puts⟩

/-- A put. -/
theorem Shelved.put (h : s.Shelved doHash content doc t) {k : Key} {d : List UInt8}
    {s' : Store Key Q} {ret : ℤ}
    (hput : (checked whd doHash content).putNewChunk s k d = some (s', ret)) :
    ∃ t', Agilefs.shelf.recorded.putNewChunk t k d = some (t', ret) ∧
      s'.Shelved doHash content doc t' := by
  obtain ⟨hkey, hnames, hd, hregular, hstep⟩ := checked_put hput doc
  have hlen : d.length = 4096 := by rw [← hd, (content k).property]
  obtain ⟨s₁, r, hstep₁, hcounts, hdur⟩ := h.durable.put whd hregular
  obtain ⟨rfl, rfl⟩ := Prod.mk.inj (Option.some.inj (hstep₁.symm.trans hstep))
  have hputs : ∀ z ∈ Agilefs.puts (t.2 ++ [.put k d]), Names doHash content z.2 := fun z hz => by
    rw [puts_append, List.mem_append] at hz
    rcases hz with hz | hz
    · exact h.puts z hz
    · obtain rfl := List.mem_singleton.1 hz
      exact hnames
  -- the counts afterwards
  obtain ⟨m, hm, hret⟩ : ∃ m, s₁.counts = update s.counts k (some m) ∧ ret = 0 := by
    cases hk : s.counts k with
    | some m =>
      simp only [countsStep, hk, if_true, Option.some_inj, Prod.mk.injEq] at hcounts
      exact ⟨m + 1, hcounts.1.symm, (DurableRet.code.inj hcounts.2).symm⟩
    | none =>
      simp only [countsStep, hk, if_true, Option.some_inj, Prod.mk.injEq] at hcounts
      exact ⟨1, hcounts.1.symm, (DurableRet.code.inj hcounts.2).symm⟩
  subst hret
  have hnamed : ∀ k', (s₁.counts k').isSome →
      doHash (content k').val = k' ∧ Names doHash content (content k').val := fun k' hk' => by
    by_cases hkk : k' = k
    · subst hkk
      rw [hd]
      exact ⟨hkey, hnames⟩
    · exact h.named k' (by rwa [hm, update_of_ne hkk] at hk')
  refine ⟨(update t.1 k (some (content k)), t.2 ++ [.put k d]), ?_, hdur, fun k' => ?_, hnamed,
    hputs⟩
  · have hblock : (⟨d, hlen⟩ : ChunkBytes) = content k := Subtype.ext hd.symm
    have hold : ∀ e, t.1 k = some e → e = content k := fun e he => by
      rw [h.shelf] at he
      obtain ⟨-, -, rfl⟩ := Option.map_eq_some_iff.1 he
      rfl
    cases ht : t.1 k with
    | some e =>
      rw [← hold e ht, ← ht, update_eq_self]
      simp only [BlockStore.recorded, Agilefs.shelf, ht, Option.map_some]
    | none =>
      simp only [BlockStore.recorded, Agilefs.shelf, ht, dif_pos hlen, hblock, Option.map_some]
  · rw [hm]
    by_cases hkk : k' = k
    · subst hkk
      simp
    · simpa only [update_of_ne hkk] using h.shelf k'

/-- Calls that pass their checks do the same on a shelf. -/
theorem checked_shelf : (checked whd doHash content).Simulates Agilefs.shelf.recorded
    (Shelved doHash content doc : Store Key Q → Shelf × List StoreCall → Prop) := by
  refine ⟨fun s t k n off h hle => ?_, fun s t k d s' ret h hput => h.put hput,
    fun s t k s' ret h hdel => ?_⟩
  · have hread : s.blockRead {} k n off = (s.db k).map fun _ => pread (content k).val n off :=
      h.durable.wellFormed.blockRead_inside h.durable.holds rfl rfl k hle
    change (t.1 k).map (fun d => (d.val.drop (off : ℤ).toNat).take n) = s.blockRead {} k n off
    rw [hread, h.shelf, counts, Option.map_map, Option.map_map]
    rfl
  · obtain ⟨rfl, rfl⟩ := checked_del hdel
    refine ⟨(t.1, t.2 ++ [.del k]), rfl, h.durable, h.shelf, h.named, ?_⟩
    rw [puts_append]
    simpa using h.puts

omit [DecidableEq Q] in
/-- On the shelf a chunk is under its hash. -/
theorem Shelved.addressed (h : s.Shelved doHash content doc t) :
    Addressed doHash {d | Names doHash content d} (Shelf.view.chunk t.1) := by
  intro k d hd
  obtain ⟨e, he, rfl⟩ := Option.map_eq_some_iff.1 hd
  rw [h.shelf, Option.map_eq_some_iff] at he
  obtain ⟨m, hm, rfl⟩ := he
  obtain ⟨hhash, hnames⟩ := h.named k (by rw [hm]; rfl)
  exact ⟨hnames, hhash⟩

end Store

/-! ## Mounts -/

/-- A request, or the end of `main` and its start in the next process. -/
inductive MountCall (P : Type*) where
  | request (call : FileCall P)
  | remount (env : InitEnv) (base : ChunkFileInfo)

namespace Client

variable [DecidableEq P] [DecidableEq Q]

/-- One step of a client whose chunk files are those of `doc`. A process that starts has no
descriptors and no handles. -/
def mounted (doc : List (XmlEvent Q)) (doHash : List UInt8 → Key) (st : BlockStore (Store Key Q))
    (c : Client (Store Key Q) P) :
    MountCall P → Option (Client (Store Key Q) P × FileReply)
  | .request call => c.serve doHash st call
  | .remount env base => (c.store.restart doc env base).map fun store =>
    ({ c with os := { c.os with fds := fun _ => none }, contexts := fun _ => none, store },
      { ret := some 0 })

end Client

namespace FileSys

/-- What it should do. -/
def mounted [DecidableEq P] (s : FileSys P) : MountCall P → Option (FileSys P × FileReply)
  | .request call => s.step call
  | .remount _ _ => some ({ s with handles := fun _ => none }, { ret := some 0 })

/-- The calls that are promised to do what they should; no file is open when the client is
unmounted. -/
def FitsMount (s : FileSys P) : MountCall P → Prop
  | .request call => s.Fits call
  | .remount _ _ => ∀ fh, s.handles fh = none

end FileSys

/-! ## Runs -/

namespace Client

variable [DecidableEq P] [DecidableEq Q] {whd : WriteHashDb Key} {doHash : List UInt8 → Key}
  {content : Key → Block} {doc : List (XmlEvent Q)}

/-- A client over chunk files stands for a file system, as it does over a shelf with the same
blocks. -/
def Backed (doHash : List UInt8 → Key) (content : Key → Block) (doc : List (XmlEvent Q))
    (c : Client (Store Key Q) P) (s : FileSys P) : Prop :=
  ∃ t, c.store.Shelved doHash content doc t ∧
    (c.withStore t).Mirrors doHash Shelf.view {d | Names doHash content d} s

/-- The calls to the store pass the checks. -/
def Passes (whd : WriteHashDb Key) (doHash : List UInt8 → Key) (content : Key → Block)
    (c : Client (Store Key Q) P) : MountCall P → Prop
  | .request call => c.Sized call ∧ (c.serve doHash (Store.checked whd doHash content) call).isSome
  | .remount _ _ => True

instance (whd : WriteHashDb Key) (doHash : List UInt8 → Key) (content : Key → Block)
    (c : Client (Store Key Q) P) : ∀ call, Decidable (c.Passes whd doHash content call)
  | .request _ => inferInstanceAs (Decidable (_ ∧ _))
  | .remount _ _ => inferInstanceAs (Decidable True)

/-- A request that changes something. -/
theorem Backed.change {c : Client (Store Key Q) P} {s : FileSys P}
    (h : c.Backed doHash content doc s) {op : FuseOp P} (hfit : s.Fits (.change op))
    (hsized : c.Sized (.change op)) {c' : Client (Store Key Q) P} {ret : Option ℤ}
    (hstep : c.step doHash (Store.checked whd doHash content) op = some (c', ret)) :
    ∃ s', c.step doHash (Store.blocks whd {}) op = some (c', ret) ∧
      s.change op = some (s', ret) ∧ c'.Backed doHash content doc s' := by
  obtain ⟨t, hshelved, hmirrors⟩ := h
  obtain ⟨_, hblocks, rfl⟩ := step_simulates Store.checked_blocks (t := c.store) rfl hstep
  obtain ⟨t', hshelf, hshelved'⟩ := step_simulates Store.checked_shelf hshelved hstep
  obtain ⟨c'', s', ret', hstep', hchange, hmirrors'⟩ := hmirrors.change shelf_lasting
    (names_injOn doHash content) (fun d hd => hd.1) hfit
    (by cases op <;> exact hsized) fun y ret₁ hy => by
      obtain ⟨rfl, -⟩ := Prod.mk.inj (Option.some.inj (hy.symm.trans hshelf))
      exact hshelved'.puts
  obtain ⟨rfl, rfl⟩ := Prod.mk.inj (Option.some.inj (hstep'.symm.trans hshelf))
  exact ⟨s', hblocks, hchange, t', hshelved', hmirrors'⟩

/-- A request. -/
theorem Backed.request {c : Client (Store Key Q) P} {s : FileSys P}
    (h : c.Backed doHash content doc s) {call : FileCall P}
    (hpass : c.Passes whd doHash content (.request call)) (hfit : s.Fits call) :
    ∃ c' s' r, c.serve doHash (Store.blocks whd {}) call = some (c', r) ∧
      s.step call = some (s', r) ∧ c'.Backed doHash content doc s' := by
  obtain ⟨hsized, hsome⟩ := hpass
  cases call with
  | change op =>
    obtain ⟨⟨c', r⟩, hserve⟩ := Option.isSome_iff_exists.1 hsome
    obtain ⟨⟨c₁, ret⟩, hstep, heq⟩ := Option.map_eq_some_iff.1 hserve
    obtain ⟨rfl, rfl⟩ := Prod.mk.inj heq
    obtain ⟨s', hblocks, hchange, h'⟩ := h.change hfit hsized hstep
    exact ⟨c₁, s', { ret }, by simp only [serve, hblocks, Option.map_some],
      by simp only [FileSys.step, hchange, Option.map_some], h'⟩
  | read fh buf offset junk =>
    obtain ⟨n, (hfh : s.handles fh = some n), h₀, hend, hsize, hblock⟩ := hfit
    obtain ⟨t, hshelved, hmirrors⟩ := id h
    have hfit : offset % 4096 = 0 ∨ offset % 4096 + (offset + buf.length - offset) ≤ 4096 :=
      hblock.imp_right fun hle => by omega
    have hshelf : ReadsBlocks shelf.recorded t (c.os.inodes n) (s.bytes n) offset
        (offset + buf.length) :=
      (hmirrors.describes n (Or.inr ⟨fh, hfh⟩)).readsBlocks shelf_lasting h₀ hend hfit
    have hsim : (Store.checked whd doHash content).Simulates Agilefs.shelf.recorded
      (Store.Shelved doHash content doc) := Store.checked_shelf
    have hread : ReadsBlocks (Store.blocks whd {}) c.store (c.os.inodes n) (s.bytes n) offset
      (offset + buf.length) := hsim.readsBlocks hshelved hfit hshelf
    have hserve := hmirrors.read (c := c) rfl rfl hfh h₀ hend hsize hread junk
    refine ⟨c, s, ⟨some (buf.length : ℤ), (s.bytes n).pread buf.length offset.toNat⟩, ?_,
      by simp only [FileSys.step, hfh, Option.map_some], h⟩
    rw [serve, hserve, Option.map_some]
  | getattr sz p =>
    obtain ⟨t, -, hmirrors⟩ := id h
    refine ⟨c, s, { ret := (s.names p).map fun n => ((s.bytes n).length : ℤ) }, ?_, rfl, h⟩
    rw [serve, ← hmirrors.getattr hfit sz]
    rfl
  | fgetattr fh =>
    obtain ⟨n, (hfh : s.handles fh = some n), -⟩ := hfit
    obtain ⟨t, -, hmirrors⟩ := id h
    refine ⟨c, s, { ret := some ((s.bytes n).length : ℤ) }, ?_,
      by simp only [FileSys.step, hfh, Option.map_some], h⟩
    rw [serve, ← hmirrors.fgetattr hfh]
    rfl

/-- The next process. -/
theorem Backed.remount {c : Client (Store Key Q) P} {s : FileSys P}
    (h : c.Backed doHash content doc s) (hdoc : TotalFirst doc) (hnd : (paths doc).Nodup)
    (hclosed : ∀ fh, s.handles fh = none) (whd : WriteHashDb Key) (env : InitEnv)
    (base : ChunkFileInfo) :
    ∃ c' s' r, c.mounted doc doHash (Store.blocks whd {}) (.remount env base) = some (c', r) ∧
      s.mounted (.remount env base) = some (s', r) ∧ c'.Backed doHash content doc s' := by
  obtain ⟨t, hshelved, hmirrors⟩ := h
  obtain ⟨s₁, r, hstep, hcounts, hdur⟩ := hshelved.durable.restart hdoc hnd whd env base
  obtain ⟨s₂, hrestart, heq⟩ := Option.map_eq_some_iff.1 hstep
  obtain ⟨rfl, rfl⟩ := Prod.mk.inj heq
  simp only [countsStep, Option.some_inj, Prod.mk.injEq, and_true] at hcounts
  refine ⟨{ c with
      os := { c.os with fds := fun _ => none }
      contexts := fun _ => none
      store := s₂ }, { s with handles := fun _ => none }, { ret := some 0 },
    by simp only [mounted, hrestart, Option.map_some], rfl, t,
    hshelved.congr hdur hcounts.symm, hmirrors.names, hmirrors.named, hmirrors.inj, by simp,
    by simp, fun n hn => ?_, fun p n hp _ => ?_, hmirrors.nextFile, hmirrors.nextFh,
    hmirrors.addressed⟩
  · refine hmirrors.describes n (hn.imp_right ?_)
    rintro ⟨fh, hfh⟩
    simp at hfh
  · exact hmirrors.saved p n hp fun fh hfh => by simp [hclosed fh] at hfh

/-- A call. -/
theorem Backed.mounted {c : Client (Store Key Q) P} {s : FileSys P}
    (h : c.Backed doHash content doc s) (hdoc : TotalFirst doc) (hnd : (paths doc).Nodup)
    {call : MountCall P} (hpass : c.Passes whd doHash content call ∧ s.FitsMount call) :
    ∃ c' s' r, c.mounted doc doHash (Store.blocks whd {}) call = some (c', r) ∧
      s.mounted call = some (s', r) ∧ c'.Backed doHash content doc s' := by
  cases call with
  | request call => exact h.request hpass.1 hpass.2
  | remount env base => exact h.remount hdoc hnd hpass.2 whd env base

omit [DecidableEq P] [DecidableEq Q] in
/-- A client without files. -/
theorem backed_empty {c : Client (Store Key Q) P} (hnames : ∀ p, c.os.names p = none)
    (hdur : c.store.Durable content doc) (hnamed : ∀ k, (c.store.db k).isSome →
      doHash (content k).val = k ∧ Names doHash content (content k).val) :
    c.Backed doHash content doc (.empty c.os.nextIno c.nextFh) := by
  have hshelved : c.store.Shelved doHash content doc
      ((fun k => (c.store.counts k).map fun _ => content k, []) : Shelf × List StoreCall) :=
    ⟨hdur, fun k => rfl, fun k hk => hnamed k (by rwa [Store.counts_isSome] at hk), by simp⟩
  exact ⟨_, hshelved, mirrors_empty hnames hshelved.addressed⟩

/-- The block of a key : its first byte, then zeros. -/
def headBlock (k : Key) : Block :=
  ⟨k.val.headD 0 :: List.replicate 4095 0, by rw [List.length_cons, List.length_replicate]⟩

/-- A chunk file with the block of `sevens`. -/
def sevensStore : Store Key ℕ :=
  (((Store.oneEmptyFile Key).putNewChunk (.insert Key) {} sevens (headBlock sevens).val
    fspSize).map Prod.fst).getD (Store.oneEmptyFile Key)

theorem regular_sevens : Store.Regular headBlock (Store.oneEmptyFile Key)
    (.put {} sevens (headBlock sevens)) :=
  ⟨rfl, rfl, rfl, fun _ => by decide, by simp [Store.CountFits, Store.oneEmptyFile]⟩

theorem sevensStore_spec : ∃ r, (Store.oneEmptyFile Key).durableStep (.insert Key) Store.oneFileDoc
      (.put {} sevens (headBlock sevens)) = some (sevensStore, r) ∧
    sevensStore.counts = update (fun _ => none) sevens (some 1) ∧
    sevensStore.Durable headBlock Store.oneFileDoc := by
  obtain ⟨s', r, hstep, hcounts, hdur⟩ :=
    (Store.durable_oneEmptyFile headBlock).put (.insert Key) regular_sevens
  rw [Store.durableStep] at hstep ⊢
  obtain ⟨⟨s₁, ret⟩, hput, heq⟩ := Option.map_eq_some_iff.1 hstep
  obtain ⟨rfl, rfl⟩ := Prod.mk.inj heq
  have hs : sevensStore = s₁ := by rw [sevensStore, hput, Option.map_some, Option.getD_some]
  rw [hs]
  exact ⟨_, hstep, (Prod.mk.inj (Option.some.inj hcounts)).1.symm, hdur⟩

/-- A file is written, and read after the client is mounted again. -/
def writeRemountRead : List (MountCall ℕ) :=
  [.request (.change (.create 0)), .request (.change (.write 0 [1] 0 sevens)),
    .request (.change (.release 0)),
    .remount ⟨fun _ _ _ => 0, fun _ => 0⟩ (Store.oneEmptyFile Key).cfi,
    .request (.change (.opens 0 0)), .request (.read 1 [9] 0 .zero)]

/-- A client without files. -/
def sevensClient : Client (Store Key ℕ) ℕ := ⟨⟨fun _ => none, fun _ => [], 0, fun _ => none, 3⟩,
  fun _ => none, 0, sevensStore⟩

theorem sevensClient_store : sevensClient.store = sevensStore := by
  rw [sevensClient]

theorem durable_sevensClient : sevensClient.store.Durable headBlock Store.oneFileDoc := by
  obtain ⟨-, -, -, hdur⟩ := sevensStore_spec
  rwa [sevensClient_store]

theorem named_sevensClient (k : Key) (hk : (sevensClient.store.db k).isSome) :
    firstByte (headBlock k).val = k ∧ Names firstByte headBlock (headBlock k).val := by
  obtain ⟨-, -, hcounts, -⟩ := sevensStore_spec
  rw [sevensClient_store, ← Store.counts_isSome, hcounts] at hk
  obtain rfl : k = sevens := by
    by_contra hne
    simp [hne] at hk
  decide +kernel

theorem passes_writeRemountRead :
    Runs.Each (Runs.both (mounted Store.oneFileDoc firstByte (Store.blocks (.insert Key) {}))
      FileSys.mounted)
      (fun x call => x.1.Passes (.insert Key) firstByte headBlock call ∧ x.2.FitsMount call)
      (sevensClient, .empty 0 0) writeRemountRead := by
  have hclient : Runs.Each
      (fun c call => (mounted Store.oneFileDoc firstByte (Store.blocks (.insert Key) {}) c call).map
        Prod.fst)
      (fun c call => c.Passes (.insert Key) firstByte headBlock call) sevensClient
      writeRemountRead := by
    decide +kernel
  have hfiles : Runs.Each (fun s call => (FileSys.mounted s call).map Prod.fst) FileSys.FitsMount
      (.empty 0 0) writeRemountRead := by
    have hbyte : pwrite [] [1] 0 = [1] := rfl
    simp [writeRemountRead, Runs.Each, FileSys.mounted, FileSys.step, FileSys.change,
      FileSys.FitsMount, FileSys.Fits, FileSys.empty, FileSys.create, FileSys.attach,
      FileSys.setBytes, FileSys.Opened, FileSys.Closed, hbyte]
  exact hclient.both hfiles

end Client

end Agilefs
