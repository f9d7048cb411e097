import Mathlib.Algebra.Order.BigOperators.Group.List
import Gitility.Cache.LruRefinement
import Gitility.Store.LayeredOdb

/-!
# A layered store is the ordered union of its layers

Whatever has been read before, `layered_odb.rs` answers every read with what the first layer
that holds the object holds, and the cache stays within its bounds and holds only what it has
returned.
-/

namespace Gitility

/-- An immutable layer with fixed contents: payloads, batches and headers all come from
`content`. -/
structure ObjectDb.Serves (db : ObjectDb) (content : Oid → Option Object) : Prop where
  find : ∀ oid, db.tryFind oid = .ok (content oid)
  batch : ∀ oids, db.tryFindManyBounded oids {} = .ok (oids.map content)
  header : ∀ oid, ∃ read, db.tryHeaderWithProvenance oid = .ok read ∧
    read.map HeaderRead.header = (content oid).map fun o ↦ ⟨o.1, o.2.length⟩

/-- A store that keeps the trait's defaults serves what its `try_find` finds. -/
theorem ObjectDb.serves_ofFind (hashKind : HashKind) (shallowRoots : Option (List Oid))
    (content : Oid → Option Object) :
    (ObjectDb.ofFind hashKind shallowRoots fun oid ↦ .ok (content oid)).Serves content where
  find _ := rfl
  batch oids := by
    have hall (total : ℕ) : findEach (fun oid ↦ .ok (content oid)) {} total oids =
        .ok (oids.map content) := by
      induction oids generalizing total with
      | nil => rfl
      | cons oid oids ih =>
        rw [findEach, List.map_cons]
        cases hc : content oid with
        | none => simp [ih, bind, Except.bind, pure, Except.pure]
        | some object =>
          simp [ih, enforceReadManyBudget, ensure, bind, Except.bind, pure, Except.pure]
    exact hall 0
  header oid := by
    refine ⟨_, rfl, ?_⟩
    cases content oid <;> rfl

/-- What the first of several contents that has the object has. -/
def firstOf (contents : List (Oid → Option Object)) (oid : Oid) : Option Object :=
  contents.findSome? fun content ↦ content oid

private theorem firstOf_cons (content : Oid → Option Object) (contents : List (Oid → Option Object))
    (oid : Oid) : firstOf (content :: contents) oid = (content oid).or (firstOf contents oid) := by
  rw [firstOf, List.findSome?_cons]
  cases content oid <;> rfl

/-! ### The cache -/

/-- What the reference list of a cache may hold: payloads of `holds` under their own IDs and
weights, all of them `known`, within the entry, byte and object bounds. Bytes are counted in
a `u64`. -/
structure Recency.Keeps (options : CacheOptions) (holds : Oid → Option Object)
    (known : Oid → Object → Prop) (r : Recency (HashKind × Oid) Object) : Prop where
  capacity : r.capacity = options.maxBytes
  entries : ∀ e ∈ r.entries, holds e.1.2 = some e.2.1 ∧ e.2.2 = e.2.1.2.length ∧
    e.2.2 ≤ options.maxObjectBytes ∧ known e.1.2 e.2.1 ∧ e.1.1 = e.1.2.kind
  length : r.entries.length ≤ options.maxEntries
  bytes : min (total r.entries) u64Max ≤ options.maxBytes

namespace Recency.Keeps

variable {options : CacheOptions} {holds : Oid → Option Object} {known : Oid → Object → Prop}
  {r r' : Recency (HashKind × Oid) Object}

/-- Fewer entries stay within the bounds. -/
theorem sublist (h : Keeps options holds known r) (hs : r'.entries.Sublist r.entries)
    (hc : r'.capacity = r.capacity) : Keeps options holds known r' where
  capacity := hc.trans h.capacity
  entries e he := h.entries e (hs.subset he)
  length := hs.length_le.trans h.length
  bytes := by
    have ht : total r'.entries ≤ total r.entries :=
      (hs.map _).sum_le_sum (by simp)
    have hb := h.bytes
    generalize u64Max = m at *
    omega

/-- Reordered entries stay within the bounds. -/
theorem perm (h : Keeps options holds known r) (hp : r'.entries.Perm r.entries)
    (hc : r'.capacity = r.capacity) : Keeps options holds known r' where
  capacity := hc.trans h.capacity
  entries e he := h.entries e (hp.mem_iff.mp he)
  length := hp.length_eq ▸ h.length
  bytes := by
    have ht : total r'.entries = total r.entries := (hp.map _).sum_eq
    rw [ht]
    exact h.bytes

end Recency.Keeps

namespace CacheState

variable {options : CacheOptions} {holds : Oid → Option Object} {known known' : Oid → Object → Prop}
  {s : CacheState} {oid : Oid} {object : Object}

/-- The cache stands for a reference list within its bounds, and every object that entered it
is resident or has been evicted. -/
def Ok (options : CacheOptions) (holds : Oid → Option Object) (known : Oid → Object → Prop)
    (s : CacheState) : Prop :=
  ∃ r slots evicted, s.objects.Refines r slots ∧ r.Keeps options holds known ∧
    s.insertions = r.entries.length + evicted ∧ s.evictions = min evicted u64Max

private theorem ok_new (options : CacheOptions) (holds : Oid → Option Object) (known : Oid → Object → Prop) :
    Ok options holds known (new options) := by
  refine ⟨⟨[], options.maxBytes⟩, [], 0, .new _, ⟨rfl, ?_, Nat.zero_le _, ?_⟩, rfl, ?_⟩
  · intro e he
    cases he
  · simp [Recency.total]
  · simp [new]

private theorem Ok.mono (h : Ok options holds known s)
    (hk : ∀ oid object, known oid object → known' oid object) :
    Ok options holds known' s := by
  obtain ⟨r, slots, evicted, hr, hkeep, hi, he⟩ := h
  refine ⟨r, slots, evicted, hr, ⟨hkeep.capacity, fun e he ↦ ?_, hkeep.length, hkeep.bytes⟩,
    hi, he⟩
  obtain ⟨h₁, h₂, h₃, h₄, h₅⟩ := hkeep.entries e he
  exact ⟨h₁, h₂, h₃, hk _ _ h₄, h₅⟩

/-- A lookup answers with what `holds` has, or misses. -/
theorem Ok.get (h : Ok options holds known s) (oid : Oid) :
    ∃ value s', s.get oid = some (value, s') ∧ Ok options holds known s' ∧
      ∀ object, value = some object → holds oid = some object := by
  obtain ⟨r, slots, evicted, hr, hkeep, hi, he⟩ := h
  obtain ⟨objects, slots', hget, hr'⟩ := hr.get (oid.kind, oid)
  obtain ⟨hp, hc, hval⟩ := Recency.get_spec hr.nodup_keys (oid.kind, oid)
  refine ⟨(r.get (oid.kind, oid)).1, { s with objects }, ?_,
    ⟨_, slots', evicted, hr', hkeep.perm hp hc, ?_, he⟩, ?_⟩
  · rw [CacheState.get, hget]
    rfl
  · rw [hp.length_eq]
    exact hi
  · intro object hobject
    obtain ⟨weight, hm⟩ := hval object hobject
    exact (hkeep.entries _ hm).1

private theorem min_saturating_add (m evicted more : ℕ) :
    min (min evicted m + min more m) m = min (evicted + more) m := by
  omega

/-- Making room ends with one free entry, having counted what it evicted. -/
private theorem makeRoom_spec (options : CacheOptions) {fuel : ℕ} {r : Recency _ Object}
    {slots : List ℕ} {evicted : ℕ} (hr : s.objects.Refines r slots)
    (hpos : options.maxEntries ≠ 0) (hf : r.entries.length < fuel)
    (he : s.evictions = min evicted u64Max) :
    ∃ s' r' slots' dropped, makeRoom options.maxEntries fuel s = some s' ∧
      s'.objects.Refines r' slots' ∧ r'.entries <:+ r.entries ∧ r'.capacity = r.capacity ∧
      r'.entries.length < options.maxEntries ∧
      r.entries.length = r'.entries.length + dropped ∧
      s'.insertions = s.insertions ∧ s'.evictions = min (evicted + dropped) u64Max := by
  induction fuel generalizing s r slots evicted with
  | zero => exact absurd hf (Nat.not_lt_zero _)
  | succ fuel ih =>
    rw [makeRoom, hr.len_eq]
    by_cases hfull : r.entries.length ≥ options.maxEntries
    · obtain ⟨objects, slots', hpop, hr'⟩ := hr.popLru
      rw [if_pos hfull, hpop]
      obtain ⟨entries, capacity⟩ := r
      cases entries with
      | nil => exact absurd (Nat.le_zero.mp hfull) hpos
      | cons e rest =>
        have he' : saturatingAdd s.evictions 1 = min (evicted + 1) u64Max := by
          rw [saturatingAdd, he]
          generalize u64Max = m
          omega
        obtain ⟨s', r', slots'', dropped, hrun, hr'', hsuf, hcap, hlen, hcount, hins, hev⟩ :=
          ih (s := ⟨objects, saturatingAdd s.evictions 1, s.insertions⟩) hr'
            (Nat.lt_of_succ_lt_succ hf) he'
        refine ⟨s', r', slots'', dropped + 1, ?_, hr'', hsuf.trans (List.suffix_cons e rest),
          hcap, hlen, ?_, hins, ?_⟩
        · simp only [Recency.popLru, bind, Option.bind]
          exact hrun
        · simp only [List.length_cons] at hcount ⊢
          change rest.length = _ at hcount
          omega
        · rw [hev, Nat.add_assoc, Nat.add_comm 1]
    · rw [if_neg hfull]
      exact ⟨s, r, slots, 0, rfl, hr, List.suffix_refl _, rfl, Nat.not_le.mp hfull, rfl, rfl, he⟩

/-- Inserting into a reference list with a free entry stays within the bounds. -/
private theorem keeps_insert {r : Recency (HashKind × Oid) Object}
    (h : r.Keeps options holds known) (hroom : (r.without (oid.kind, oid)).entries.length <
      options.maxEntries) (hhold : holds oid = some object)
    (hknown : known oid object)
    (hsize : object.2.length ≤ options.maxObjectBytes)
    (hbytes : object.2.length ≤ options.maxBytes) (hpos : options.maxBytes ≠ 0) :
    ∃ evicted r', r.insertCountingEvictions (oid.kind, oid) object object.2.length =
        (min evicted u64Max, r') ∧ r'.Keeps options holds known ∧
      r'.entries.length + evicted = (r.without (oid.kind, oid)).entries.length + 1 := by
  have hcap := h.capacity
  have hnot : ¬(r.capacity = 0 ∨ object.2.length > r.capacity) := by
    rw [hcap]
    omega
  have hlen := Recency.length_shed r.capacity object.2.length
    (r.without (oid.kind, oid)).entries
  have hfit := Recency.shed_fits (hcap ▸ hbytes) (r.without (oid.kind, oid)).entries
  have hsub := Recency.shed_suffix r.capacity object.2.length
    (r.without (oid.kind, oid)).entries
  have hfilter : (r.without (oid.kind, oid)).entries.Sublist r.entries := List.filter_sublist
  rw [Recency.insertCountingEvictions, if_neg hnot]
  cases hshed : Recency.shed r.capacity object.2.length (r.without (oid.kind, oid)).entries with
  | mk evicted kept =>
    rw [hshed] at hlen hfit hsub
    simp only at hlen hfit hsub
    refine ⟨evicted, _, rfl, ⟨hcap, ?_, ?_, ?_⟩, ?_⟩
    · intro e he
      rcases List.mem_append.mp he with he | he
      · exact h.entries e (hfilter.subset (hsub.subset he))
      · obtain rfl := List.mem_singleton.mp he
        exact ⟨hhold, rfl, hsize, hknown, rfl⟩
    · rw [List.length_append, List.length_singleton]
      omega
    · rw [hcap] at hfit
      simp only [Recency.total, List.map_append, List.map_cons, List.map_nil, List.sum_append,
        List.sum_cons, List.sum_nil, Nat.add_zero]
      exact hfit
    · rw [List.length_append, List.length_singleton]
      omega

/-- Inserting an object that `holds` has keeps the cache sound. -/
theorem Ok.insert (h : Ok options holds known s) (hmax : options.maxBytes ≠ 0)
    (hpos : options.maxEntries ≠ 0) (hhold : holds oid = some object)
    (hknown : known oid object) :
    ∃ s', s.insert options oid object = some s' ∧ Ok options holds known s' := by
  rw [CacheState.insert]
  by_cases hbig : object.2.length > options.maxObjectBytes ∨ object.2.length > options.maxBytes
  · rw [if_pos hbig]
    exact ⟨s, rfl, h⟩
  · rw [if_neg hbig]
    obtain ⟨r, slots, evicted, hr, hkeep, hi, he⟩ := h
    obtain ⟨objects, slots₁, hremove, hr₁⟩ := hr.remove (oid.kind, oid)
    have hlen := Recency.length_without hr.nodup_keys (oid.kind, oid)
    have hkeep₁ : (r.without (oid.kind, oid)).Keeps options holds known :=
      hkeep.sublist List.filter_sublist rfl
    -- The state before the weighted insertion, with room for one more entry.
    have hroom : ∃ s₂ r₂ slots₂ evicted₂,
        boundEntries options (r.remove (oid.kind, oid)).1.isSome { s with objects } = some s₂ ∧
        s₂.objects.Refines r₂ slots₂ ∧ r₂.Keeps options holds known ∧
        r₂.without (oid.kind, oid) = r₂ ∧ r₂.entries.length < options.maxEntries ∧
        s₂.insertions = r₂.entries.length + 1 + evicted₂ ∧ s₂.evictions = min evicted₂ u64Max := by
      have hself : (r.without (oid.kind, oid)).without (oid.kind, oid) =
          r.without (oid.kind, oid) := by
        simp [Recency.without, List.filter_filter]
      cases hrem : (r.remove (oid.kind, oid)).1.isSome with
      | true =>
        rw [hrem] at hlen
        simp only [Bool.toNat_true] at hlen
        have hle := hkeep.length
        refine ⟨{ s with objects }, r.without (oid.kind, oid), slots₁, evicted, rfl, hr₁, hkeep₁,
          hself, by omega, ?_, he⟩
        change s.insertions = _
        omega
      | false =>
        rw [hrem] at hlen
        simp only [Bool.toNat_false, Nat.add_zero] at hlen
        obtain ⟨s', r', slots', dropped, hrun, hr', hsuf, hcap, hlt, hcount, hins, hev⟩ :=
          makeRoom_spec (s := { s with objects }) options hr₁ hpos (Nat.lt_succ_self _) he
        rw [← hr₁.len_eq] at hrun
        refine ⟨{ s' with insertions := s'.insertions + 1 }, r', slots', evicted + dropped, ?_,
          hr', hkeep₁.sublist hsuf.sublist hcap, ?_, hlt, ?_, hev⟩
        · rw [boundEntries, if_neg Bool.false_ne_true, hrun]
          rfl
        · rw [Recency.without, List.filter_eq_self.mpr]
          intro e hm
          exact (List.mem_filter.mp (hsuf.subset hm)).2
        · change s'.insertions + 1 = _
          rw [hins]
          change s.insertions + 1 = _
          change (r.without (oid.kind, oid)).entries.length = _ at hcount
          omega
    obtain ⟨s₂, r₂, slots₂, evicted₂, hs₂, hr₂, hkeep₂, hself₂, hlt₂, hins₂, hev₂⟩ := hroom
    obtain ⟨more, r₃, hinsert, hkeep₃, hcount⟩ := keeps_insert hkeep₂ (by rw [hself₂]; exact hlt₂)
      hhold hknown (by omega) (by omega) hmax
    obtain ⟨objects₃, slots₃, hrun₃, hr₃⟩ :=
      hr₂.insertCountingEvictions (oid.kind, oid) object object.2.length
    rw [hinsert] at hrun₃ hr₃
    refine ⟨⟨objects₃, saturatingAdd s₂.evictions (min more u64Max), s₂.insertions⟩, ?_,
      ⟨r₃, slots₃, evicted₂ + more, hr₃, hkeep₃, ?_, ?_⟩⟩
    · simp only [hremove, bind, Option.bind, hs₂, hrun₃]
      rfl
    · change s₂.insertions = _
      rw [hself₂] at hcount
      omega
    · rw [saturatingAdd, hev₂]
      exact min_saturating_add u64Max evicted₂ more

end CacheState

/-! ### Steps that keep the cache sound -/

namespace CacheM

variable {α β : Type} {good : CacheState → Prop} {m : CacheM α} {f : α → CacheM β}
  {post : α → Prop} {post' : β → Prop}

/-- In every good state the step returns a value with `post` and leaves a good state. -/
def Returns (good : CacheState → Prop) (m : CacheM α) (post : α → Prop) : Prop :=
  ∀ s, good s → ∃ a s', m s = some (.ok a, s') ∧ good s' ∧ post a

private theorem Returns.pure {a : α} (h : post a) : Returns good (Pure.pure a : CacheM α) post :=
  fun s hs ↦ ⟨a, s, rfl, hs, h⟩

private theorem Returns.ofExcept {x : Except Error α} {a : α} (hx : x = .ok a) (h : post a) :
    Returns good (liftM x : CacheM α) post := by
  subst hx
  exact fun s hs ↦ ⟨a, s, rfl, hs, h⟩

private theorem bind_error {s s' : CacheState} {e : Error} (h : m s = some (.error e, s')) :
    (m >>= f) s = some (.error e, s') := by
  change (m s).bind _ = _
  rw [h, Option.bind_some]

private theorem Returns.bind (h : Returns good m post) (hf : ∀ a, post a → Returns good (f a) post') :
    Returns good (m >>= f) post' := by
  intro s hs
  obtain ⟨a, s₁, h₁, hs₁, ha⟩ := h s hs
  obtain ⟨b, s₂, h₂, hs₂, hb⟩ := hf a ha s₁ hs₁
  refine ⟨b, s₂, ?_, hs₂, hb⟩
  change (m s).bind _ = _
  rw [h₁, Option.bind_some]
  exact h₂

end CacheM

namespace LayeredOdb

open CacheM

variable {db : LayeredOdb} {contents : List (Oid → Option Object)} {known : Oid → Object → Prop}

/-- The cache of a composition over `contents` holds what the layers below it hold. -/
def Coherent (db : LayeredOdb) (contents : List (Oid → Option Object)) (known : Oid → Object → Prop)
    (s : CacheState) : Prop :=
  ∀ index options, db.cache = some (index, options) →
    s.Ok options (firstOf (contents.drop index)) known

/-- The cache bounds `CacheLayer::new` lets through. -/
def ValidCache (db : LayeredOdb) : Prop :=
  ∀ index options, db.cache = some (index, options) →
    options.maxBytes ≠ 0 ∧ options.maxEntries ≠ 0

private theorem cacheAt_eq_some {index : ℕ} {options : CacheOptions} :
    db.cacheAt index = some options ↔ db.cache = some (index, options) := by
  rw [cacheAt, Option.bind_eq_some_iff]
  constructor
  · rintro ⟨⟨i, o⟩, hc, hi⟩
    dsimp only at hi
    by_cases heq : i = index
    · rw [if_pos heq, Option.some.injEq] at hi
      rw [hc, heq, hi]
    · rw [if_neg heq] at hi
      cases hi
  · intro hc
    exact ⟨_, hc, if_pos rfl⟩

private theorem cacheBefore_eq_some {index : ℕ} {options : CacheOptions}
    (h : db.cacheBefore index = some options) :
    ∃ position ≤ index, db.cache = some (position, options) := by
  rw [cacheBefore, Option.bind_eq_some_iff] at h
  obtain ⟨⟨i, o⟩, hc, hi⟩ := h
  dsimp only at hi
  by_cases hle : i ≤ index
  · rw [if_pos hle, Option.some.injEq] at hi
    exact ⟨i, hle, hi ▸ hc⟩
  · rw [if_neg hle] at hi
    cases hi

/-- A hit at a position answers for all layers from there on. -/
theorem lookUp_returns (index : ℕ) (oid : Oid) :
    Returns (db.Coherent contents known) (db.lookUp index oid) fun value ↦
      ∀ object, value = some object → firstOf (contents.drop index) oid = some object := by
  rw [lookUp]
  cases hc : db.cacheAt index with
  | none =>
    apply Returns.pure
    intro object h
    cases h
  | some options =>
    rw [cacheAt_eq_some] at hc
    intro s hs
    obtain ⟨value, s', hget, hok, hval⟩ := (hs index options hc).get oid
    refine ⟨value, s', ?_, ?_, hval⟩
    · simp only [CacheM.lift, hget, Option.map_some]
    · intro i o hio
      obtain ⟨rfl, rfl⟩ : i = index ∧ o = options := by simpa [hc] using hio.symm
      exact hok

/-- A kept object enters the cache above its layer. -/
theorem remember_returns (hv : db.ValidCache) {index : ℕ} {oid : Oid} {object : Object}
    (hhold : ∀ position ≤ index, firstOf (contents.drop position) oid = some object)
    (hknown : known oid object) :
    Returns (db.Coherent contents known) (db.remember index oid object) fun _ ↦ True := by
  rw [remember]
  cases hc : db.cacheBefore index with
  | none => exact .pure True.intro
  | some options =>
    obtain ⟨position, hle, hcache⟩ := cacheBefore_eq_some hc
    obtain ⟨hmax, hpos⟩ := hv position options hcache
    intro s hs
    obtain ⟨s', hrun, hok⟩ :=
      (hs position options hcache).insert hmax hpos (hhold position hle) hknown
    refine ⟨(), s', ?_, ?_, True.intro⟩
    · simp only [CacheM.lift, hrun, Option.map_some]
    · intro i o hio
      obtain ⟨rfl, rfl⟩ : i = position ∧ o = options := by simpa [hcache] using hio.symm
      exact hok

/-! ### One batch -/

/-- From `before` to `after` the batch resolved exactly the IDs that left the list, each with
its `value`. -/
structure Resolves (value : Oid → Option Object) (before after : List Oid)
    (batch batch' : Batch) : Prop where
  sublist : after.Sublist before
  hit : ∀ oid ∈ before, oid ∉ after → ∃ object, value oid = some object ∧
    batch'.resolved.lookup oid = some (some object)
  frame : ∀ oid, oid ∉ before ∨ oid ∈ after →
    batch'.resolved.lookup oid = batch.resolved.lookup oid

namespace Resolves

variable {value value₁ value₂ : Oid → Option Object} {before middle after : List Oid}
  {batch batch' batch'' : Batch} {oid : Oid} {object : Object}

private theorem refl (value : Oid → Option Object) (before : List Oid) (batch : Batch) :
    Resolves value before before batch batch where
  sublist := List.Sublist.refl _
  hit _ hb ha := absurd hb ha
  frame _ _ := rfl

private theorem trans (h : Resolves value₁ before middle batch batch')
    (h' : Resolves value₂ middle after batch' batch'')
    (h₁ : ∀ oid object, value₁ oid = some object → value oid = some object)
    (h₂ : ∀ oid ∈ middle, ∀ object, value₂ oid = some object → value oid = some object) :
    Resolves value before after batch batch'' where
  sublist := h'.sublist.trans h.sublist
  hit oid hb ha := by
    by_cases hm : oid ∈ middle
    · obtain ⟨object, hv, hl⟩ := h'.hit oid hm ha
      exact ⟨object, h₂ oid hm object hv, hl⟩
    · obtain ⟨object, hv, hl⟩ := h.hit oid hb hm
      refine ⟨object, h₁ oid object hv, ?_⟩
      rw [h'.frame oid (.inl hm), hl]
  frame oid ho := by
    rcases ho with hb | ha
    · have hm : oid ∉ middle := fun hm ↦ hb (h.sublist.subset hm)
      rw [h'.frame oid (.inl hm), h.frame oid (.inl hb)]
    · have hm := h'.sublist.subset ha
      rw [h'.frame oid (.inr ha), h.frame oid (.inr hm)]

/-- The next ID is resolved. -/
theorem cons_hit (hn : oid ∉ before) (hv : value oid = some object)
    (h : Resolves value before after
      ⟨(oid, some object) :: batch.resolved, saturatingAdd batch.resultBytes object.2.length⟩
      batch') : Resolves value (oid :: before) after batch batch' where
  sublist := h.sublist.trans (List.sublist_cons_self oid before)
  hit other hb ha := by
    by_cases heq : other = oid
    · subst heq
      refine ⟨object, hv, ?_⟩
      rw [h.frame other (.inl hn)]
      simp
    · exact h.hit other ((List.mem_cons.mp hb).resolve_left heq) ha
  frame other ho := by
    have hne : other ≠ oid := by
      rintro rfl
      rcases ho with hb | ha
      · exact hb List.mem_cons_self
      · exact hn (h.sublist.subset ha)
    rw [h.frame other (ho.imp_left fun hb hm ↦ hb (List.mem_cons_of_mem _ hm)),
      List.lookup_cons, beq_eq_false_iff_ne.mpr hne]

/-- The next ID stays unresolved. -/
theorem cons_miss (hn : oid ∉ before) (h : Resolves value before after batch batch') :
    Resolves value (oid :: before) (oid :: after) batch batch' where
  sublist := h.sublist.cons_cons oid
  hit other hb ha := by
    rw [List.mem_cons, not_or] at ha
    exact h.hit other ((List.mem_cons.mp hb).resolve_left ha.1) ha.2
  frame other ho := by
    by_cases heq : other = oid
    · exact h.frame other (.inl (heq ▸ hn))
    · apply h.frame other
      rcases ho with hb | ha
      · exact .inl fun hm ↦ hb (List.mem_cons_of_mem _ hm)
      · exact .inr ((List.mem_cons.mp ha).resolve_left heq)

end Resolves

private theorem resolve_unbounded (batch : Batch) (oid : Oid) (object : Object) :
    batch.resolve {} oid object =
      .ok ⟨(oid, some object) :: batch.resolved,
        saturatingAdd batch.resultBytes object.2.length⟩ := by
  simp [Batch.resolve, enforceReadManyBudget, ensure, bind, Except.bind, pure, Except.pure]

/-- The cache round resolves what is resident. -/
theorem consult_returns (index : ℕ) {before : List Oid} (hn : before.Nodup) (batch : Batch) :
    Returns (db.Coherent contents known) (db.consult index {} before batch) fun result ↦
      Resolves (firstOf (contents.drop index)) before result.1 batch result.2 := by
  induction before generalizing batch with
  | nil => exact .pure (.refl _ _ batch)
  | cons oid oids ih =>
    obtain ⟨hoid, hoids⟩ := List.nodup_cons.mp hn
    rw [consult]
    refine (lookUp_returns index oid).bind fun value hval ↦ ?_
    cases value with
    | some object =>
      refine (Returns.ofExcept (resolve_unbounded batch oid object) rfl).bind ?_
      rintro _ rfl
      intro s hs
      obtain ⟨result, s', hrun, hs', hres⟩ := ih hoids _ s hs
      exact ⟨result, s', hrun, hs', hres.cons_hit hoid (hval object rfl)⟩
    | none =>
      refine (ih hoids batch).bind fun result hres ↦ ?_
      exact .pure (hres.cons_miss hoid)

/-- The layer round resolves what the layer holds. -/
theorem keep_returns (hv : db.ValidCache) {index : ℕ} {content : Oid → Option Object}
    {before : List Oid} (hn : before.Nodup)
    (hknown : ∀ oid ∈ before, ∀ object, firstOf contents oid = some object → known oid object)
    (hhold : ∀ oid ∈ before, ∀ object, content oid = some object →
      ∀ position ≤ index, firstOf (contents.drop position) oid = some object)
    (batch : Batch) :
    Returns (db.Coherent contents known)
      (db.keep index {} (before.zip (before.map content)) batch) fun result ↦
      Resolves content before result.1 batch result.2 ∧
        ∀ oid ∈ result.1, content oid = none := by
  induction before generalizing batch with
  | nil => exact .pure ⟨.refl _ _ batch, by simp⟩
  | cons oid oids ih =>
    obtain ⟨hoid, hoids⟩ := List.nodup_cons.mp hn
    have ih := ih hoids (fun o ho ↦ hknown o (List.mem_cons_of_mem _ ho))
      (fun o ho ↦ hhold o (List.mem_cons_of_mem _ ho))
    rw [List.map_cons, List.zip_cons_cons]
    cases hc : content oid with
    | some object =>
      rw [keep]
      refine (Returns.ofExcept (resolve_unbounded batch oid object) rfl).bind ?_
      rintro _ rfl
      refine (remember_returns hv (hhold oid List.mem_cons_self object hc)
        (hknown oid List.mem_cons_self object ?_)).bind fun _ _ ↦ ?_
      · exact hhold oid List.mem_cons_self object hc 0 (Nat.zero_le _)
      intro s hs
      obtain ⟨result, s', hrun, hs', hres, hnone⟩ := ih _ s hs
      exact ⟨result, s', hrun, hs', hres.cons_hit hoid hc, hnone⟩
    | none =>
      rw [keep]
      refine (ih batch).bind fun result hres ↦ ?_
      refine .pure ⟨hres.1.cons_miss hoid, fun other ho ↦ ?_⟩
      rcases List.mem_cons.mp ho with rfl | ho
      · exact hc
      · exact hres.2 other ho

/-- The layers from `index` on resolve what the first of them holds. -/
theorem findFrom_returns (hv : db.ValidCache) {layers : List ObjectDb} {index : ℕ}
    {below : List (Oid → Option Object)} (hs : List.Forall₂ ObjectDb.Serves layers below)
    (hbelow : contents.drop index = below) {before : List Oid}
    (hn : before.Nodup)
    (hknown : ∀ oid ∈ before, ∀ object, firstOf contents oid = some object → known oid object)
    (habove : ∀ oid ∈ before, ∀ position ≤ index,
      firstOf (contents.drop position) oid = firstOf below oid)
    (batch : Batch) :
    Returns (db.Coherent contents known) (db.findFrom {} index layers before batch)
      fun result ↦ Resolves (firstOf below) before result.1 batch result.2 ∧
        ∀ oid ∈ result.1, firstOf below oid = none := by
  induction hs generalizing index before batch with
  | nil => exact .pure ⟨.refl _ _ batch, fun _ _ ↦ rfl⟩
  | @cons layer content layers below hserve _ ih =>
    have hdrop : contents.drop (index + 1) = below := by
      rw [← List.drop_drop, hbelow]
      rfl
    rw [findFrom]
    refine (consult_returns index hn batch).bind ?_
    rintro ⟨middle, batch₁⟩ hres₁
    rw [hbelow] at hres₁
    dsimp only at hres₁ ⊢
    have hsub₁ : middle.Sublist before := hres₁.sublist
    by_cases hempty : middle.isEmpty
    · rw [if_pos hempty]
      refine .pure ⟨hres₁, fun oid ho ↦ ?_⟩
      rw [List.isEmpty_iff.mp hempty] at ho
      cases ho
    · rw [if_neg hempty]
      refine (Returns.ofExcept (a := middle.map content)
        (congrArg (atLayer index) (hserve.batch middle)) rfl).bind ?_
      rintro _ rfl
      refine (Returns.ofExcept (a := ()) (by simp) rfl).bind fun _ _ ↦ ?_
      refine (keep_returns hv (hsub₁.nodup hn) (fun o ho ↦ hknown o (hsub₁.subset ho)) ?_
        batch₁).bind ?_
      · intro oid ho object hc position hle
        rw [habove oid (hsub₁.subset ho) position hle, firstOf_cons, hc]
        rfl
      rintro ⟨rest, batch₂⟩ ⟨hres₂, hnone⟩
      have hsub₂ : rest.Sublist before := hres₂.sublist.trans hsub₁
      -- An ID the layer does not hold is answered by the layers after it.
      have hskip (oid : Oid) (ho : oid ∈ rest) :
          firstOf (content :: below) oid = firstOf below oid := by
        rw [firstOf_cons, hnone oid ho]
        rfl
      intro s hs
      obtain ⟨result, s', hrun, hs', hres₃, hlast⟩ :=
        ih hdrop (hsub₂.nodup hn) (fun o ho ↦ hknown o (hsub₂.subset ho)) (by
          intro oid ho position hle
          rcases Nat.lt_or_eq_of_le hle with hlt | rfl
          · rw [habove oid (hsub₂.subset ho) position (Nat.lt_succ_iff.mp hlt), hskip oid ho]
          · rw [hdrop]) batch₂ s hs
      refine ⟨result, s', hrun, hs', ?_, fun oid ho ↦
        (hskip oid (hres₃.sublist.subset ho)).trans (hlast oid ho)⟩
      have hlayer : Resolves (firstOf (content :: below)) middle result.1 batch₁ result.2 := by
        refine hres₂.trans hres₃ ?_ ?_
        · intro oid object hc
          rw [firstOf_cons, hc]
          rfl
        · intro oid ho object hv
          rw [hskip oid ho, hv]
      exact hres₁.trans hlayer (fun _ _ ↦ id) fun _ _ _ ↦ id

private theorem mem_firstAppearances {oids seen : List Oid} {oid : Oid} :
    oid ∈ firstAppearances seen oids ↔ oid ∈ oids ∧ oid ∉ seen := by
  induction oids generalizing seen with
  | nil => simp [firstAppearances]
  | cons first oids ih =>
    rw [firstAppearances]
    split
    · next hseen =>
      rw [ih, List.mem_cons]
      constructor
      · exact fun h ↦ ⟨.inr h.1, h.2⟩
      · rintro ⟨rfl | h, hn⟩
        · exact absurd hseen hn
        · exact ⟨h, hn⟩
    · next hseen =>
      rw [List.mem_cons, ih, List.mem_cons, List.mem_cons, not_or]
      by_cases heq : oid = first
      · subst heq
        simp [hseen]
      · simp [heq]

private theorem nodup_firstAppearances (seen oids : List Oid) : (firstAppearances seen oids).Nodup := by
  induction oids generalizing seen with
  | nil => exact List.nodup_nil
  | cons first oids ih =>
    rw [firstAppearances]
    split
    · exact ih seen
    · refine List.nodup_cons.mpr ⟨fun h ↦ ?_, ih _⟩
      exact (mem_firstAppearances.mp h).2 List.mem_cons_self

private theorem lookup_missing (missing : List Oid) (oid : Oid) :
    (missing.map fun oid ↦ ((oid, none) : Oid × Option Object)).lookup oid =
      if oid ∈ missing then some none else none := by
  induction missing with
  | nil => rfl
  | cons first missing ih =>
    rw [List.map_cons, List.lookup_cons, ih]
    by_cases heq : oid = first
    · simp [heq]
    · simp [heq, beq_eq_false_iff_ne.mpr heq]

/-- The hash check of a batch. -/
theorem forM_ensureOid (db : LayeredOdb) (oids : List Oid) :
    (oids.forM db.ensureOid : Except Error Unit) =
      ensure (∀ oid ∈ oids, oid.kind = db.hash)
        (.new .invalidOid "object ID hash does not match the layered store") := by
  induction oids with
  | nil => simp [ensure, pure, Except.pure]
  | cons oid oids ih =>
    change (db.ensureOid oid >>= fun _ ↦ oids.forM db.ensureOid) = _
    rw [ih, ensureOid]
    by_cases h : oid.kind = db.hash
    · simp [ensure, h, bind, Except.bind]
    · simp [ensure, h, bind, Except.bind]

/-- A batch of IDs of the right hash is answered position by position. -/
theorem tryFindMany_returns (hv : db.ValidCache)
    (hs : List.Forall₂ ObjectDb.Serves db.layers contents) {oids : List Oid}
    (hkind : ∀ oid ∈ oids, oid.kind = db.hash)
    (hknown : ∀ oid ∈ oids, ∀ object, firstOf contents oid = some object → known oid object) :
    Returns (db.Coherent contents known) (db.tryFindMany oids) fun values ↦
      values = oids.map (firstOf contents) := by
  have hmem (oid : Oid) : oid ∈ firstAppearances [] oids ↔ oid ∈ oids := by
    simp [mem_firstAppearances]
  rw [tryFindMany, tryFindManyBounded]
  refine (Returns.ofExcept (a := ()) (by rwa [forM_ensureOid, ensure_eq_ok]) rfl).bind
    fun _ _ ↦ ?_
  refine (findFrom_returns hv hs List.drop_zero (nodup_firstAppearances [] oids)
    (fun oid ho ↦ hknown oid ((hmem oid).mp ho)) ?_ ⟨[], 0⟩).bind ?_
  · intro oid _ position hle
    rw [Nat.le_zero.mp hle, List.drop_zero]
  rintro ⟨missing, batch⟩ ⟨hres, hnone⟩
  apply Returns.pure
  apply List.map_congr_left
  intro oid ho
  rw [List.lookup_append]
  rw [lookup_missing]
  by_cases hm : oid ∈ missing
  · rw [if_pos hm, hnone oid hm]
    rfl
  · obtain ⟨object, hval, hlook⟩ := hres.hit oid ((hmem oid).mpr ho) hm
    rw [if_neg hm, hval]
    simp [hlook]

/-- A single payload read is a batch of one. -/
theorem tryFind_returns (hv : db.ValidCache)
    (hs : List.Forall₂ ObjectDb.Serves db.layers contents) {oid : Oid}
    (hkind : oid.kind = db.hash)
    (hknown : ∀ object, firstOf contents oid = some object → known oid object) :
    Returns (db.Coherent contents known) (db.tryFind oid) fun value ↦
      value = firstOf contents oid := by
  rw [tryFind]
  refine (tryFindMany_returns hv hs (by simpa using hkind) (by simpa using hknown)).bind ?_
  rintro _ rfl
  exact .pure rfl

/-- The layers from `index` on answer a header read with the kind and size of what the first
of them holds. -/
theorem headerFrom_returns {layers : List ObjectDb} {index : ℕ}
    {below : List (Oid → Option Object)} (hs : List.Forall₂ ObjectDb.Serves layers below)
    (hbelow : contents.drop index = below) (oid : Oid) :
    Returns (db.Coherent contents known) (db.headerFrom oid index layers) fun read ↦
      read.map HeaderRead.header = (firstOf below oid).map fun o ↦ ⟨o.1, o.2.length⟩ := by
  induction hs generalizing index with
  | nil => exact .pure rfl
  | @cons layer content layers below hserve _ ih =>
    have hdrop : contents.drop (index + 1) = below := by
      rw [← List.drop_drop, hbelow]
      rfl
    rw [headerFrom]
    refine (lookUp_returns index oid).bind fun value hval ↦ ?_
    cases value with
    | some object =>
      have hfirst := hval object rfl
      rw [hbelow] at hfirst
      rw [hfirst]
      exact .pure rfl
    | none =>
      obtain ⟨read, hread, hheader⟩ := hserve.header oid
      refine (Returns.ofExcept (a := read) (by rw [hread]; rfl) rfl).bind ?_
      rintro _ rfl
      rw [firstOf_cons]
      cases hc : content oid with
      | some object =>
        rw [hc] at hheader
        cases read with
        | none => cases hheader
        | some read => exact .pure hheader
      | none =>
        rw [hc] at hheader
        cases read with
        | none => exact ih hdrop
        | some read => cases hheader

/-- A header read of an ID of the right hash. -/
theorem tryHeader_returns (hs : List.Forall₂ ObjectDb.Serves db.layers contents) {oid : Oid}
    (hkind : oid.kind = db.hash) :
    Returns (db.Coherent contents known) (db.tryHeader oid) fun header ↦
      header = (firstOf contents oid).map fun o ↦ ⟨o.1, o.2.length⟩ := by
  rw [tryHeader, tryHeaderWithProvenance]
  have hfrom : Returns (db.Coherent contents known) (db.headerFrom oid 0 db.layers) _ :=
    headerFrom_returns hs List.drop_zero oid
  refine Returns.bind (Returns.bind (Returns.ofExcept (a := ()) ?_ rfl) fun _ _ ↦ hfrom) ?_
  · simp [ensureOid, hkind]
  · intro read hread
    exact .pure hread

end LayeredOdb

/-! ### Sequences of reads -/

/-- The reads of a client. -/
inductive Read where
  | tryFind (oid : Oid)
  | tryFindMany (oids : List Oid)
  | tryHeader (oid : Oid)

/-- What a read returns. -/
inductive ReadAnswer where
  | object (value : Option Object)
  | objects (values : List (Option Object))
  | header (value : Option ObjectHeader)

namespace Read

/-- The IDs a read asks for. -/
def oids : Read → List Oid
  | .tryFind oid | .tryHeader oid => [oid]
  | .tryFindMany oids => oids

/-- What the ordered union of `contents` answers, of the given hash. -/
def union (hash : HashKind) (contents : List (Oid → Option Object)) (read : Read) :
    Except Error ReadAnswer := do
  ensure (∀ oid ∈ read.oids, oid.kind = hash)
    (.new .invalidOid "object ID hash does not match the layered store")
  match read with
  | .tryFind oid => return .object (firstOf contents oid)
  | .tryFindMany oids => return .objects (oids.map (firstOf contents))
  | .tryHeader oid => return .header ((firstOf contents oid).map fun o ↦ ⟨o.1, o.2.length⟩)

/-- The payloads an answered read returned, with the ID they were returned for. -/
def payloads : Read × Except Error ReadAnswer → List (Oid × Object)
  | (.tryFind oid, .ok (.object value)) => value.toList.map fun object ↦ (oid, object)
  | (.tryFindMany oids, .ok (.objects values)) =>
    (oids.zip values).filterMap fun (oid, value) ↦ value.map fun object ↦ (oid, object)
  | _ => []

end Read

namespace LayeredOdb

open CacheM

variable {db : LayeredOdb} {contents : List (Oid → Option Object)}

/-- One read. -/
def serve (db : LayeredOdb) : Read → CacheM ReadAnswer
  | .tryFind oid => do return .object (← db.tryFind oid)
  | .tryFindMany oids => do return .objects (← db.tryFindMany oids)
  | .tryHeader oid => do return .header (← db.tryHeader oid)

/-- A sequence of reads, each with its answer. -/
def run (db : LayeredOdb) :
    List Read → CacheState → Option (List (Read × Except Error ReadAnswer) × CacheState)
  | [], s => some ([], s)
  | read :: reads, s => do
    let (answer, s) ← db.serve read s
    let (log, s) ← db.run reads s
    return ((read, answer) :: log, s)

/-- What `LayeredOdb::new` lets through. -/
theorem new_eq_ok {layers : List ObjectDb} {cache : Option (ℕ × CacheOptions)}
    (h : LayeredOdb.new layers cache = .ok db) :
    db.layers = layers ∧ db.cache = cache ∧ db.ValidCache := by
  cases layers with
  | nil => cases h
  | cons first rest =>
    simp only [LayeredOdb.new, Except.bind_eq_ok] at h
    obtain ⟨-, -, h⟩ := h
    cases cache with
    | none =>
      cases h
      refine ⟨rfl, rfl, ?_⟩
      intro index options hc
      cases hc
    | some entry =>
      obtain ⟨index, options⟩ := entry
      simp only [Except.bind_eq_ok, newCacheLayer, ensure_eq_ok] at h
      obtain ⟨-, -, -, ⟨-, hb, -, he, -⟩, h⟩ := h
      cases h
      refine ⟨rfl, rfl, ?_⟩
      intro i o hc
      cases hc
      exact ⟨hb, he⟩

/-- A read of an ID of another hash fails and leaves the cache alone. -/
theorem serve_error {read : Read} (hkind : ¬∀ oid ∈ read.oids, oid.kind = db.hash)
    (s : CacheState) :
    db.serve read s =
      some (.error (.new .invalidOid "object ID hash does not match the layered store"), s) := by
  have hensure : ensure (∀ oid ∈ read.oids, oid.kind = db.hash)
      (.new .invalidOid "object ID hash does not match the layered store") = .error _ :=
    if_neg hkind
  cases read with
  | tryFind oid =>
    rw [Read.oids, ← forM_ensureOid] at hensure
    refine CacheM.bind_error (CacheM.bind_error (CacheM.bind_error ?_))
    rw [hensure]
    rfl
  | tryFindMany oids =>
    rw [Read.oids, ← forM_ensureOid] at hensure
    refine CacheM.bind_error (CacheM.bind_error ?_)
    rw [hensure]
    rfl
  | tryHeader oid =>
    have hensure : db.ensureOid oid = .error _ := if_neg (by simpa [Read.oids] using hkind)
    refine CacheM.bind_error (CacheM.bind_error (CacheM.bind_error ?_))
    rw [hensure]
    rfl

/-- A read of IDs of the right hash is answered by the union, in every coherent state. -/
theorem serve_returns (hv : db.ValidCache)
    (hs : List.Forall₂ ObjectDb.Serves db.layers contents) {read : Read}
    (hkind : ∀ oid ∈ read.oids, oid.kind = db.hash) {known : Oid → Object → Prop}
    (hknown : ∀ oid object,
      (oid, object) ∈ Read.payloads (read, read.union db.hash contents) → known oid object) :
    Returns (db.Coherent contents known) (db.serve read) fun answer ↦
      read.union db.hash contents = .ok answer := by
  cases read with
  | tryFind oid =>
    have hunion : (Read.tryFind oid).union db.hash contents =
        .ok (.object (firstOf contents oid)) := by
      rw [Read.union, ensure, if_pos hkind]
      rfl
    rw [hunion] at hknown ⊢
    refine (tryFind_returns hv hs (by simpa [Read.oids] using hkind) ?_).bind ?_
    · intro object hobject
      apply hknown
      simp [Read.payloads, hobject]
    · rintro _ rfl
      exact .pure rfl
  | tryFindMany oids =>
    have hunion : (Read.tryFindMany oids).union db.hash contents =
        .ok (.objects (oids.map (firstOf contents))) := by
      rw [Read.union, ensure, if_pos hkind]
      rfl
    rw [hunion] at hknown ⊢
    refine (tryFindMany_returns hv hs hkind ?_).bind ?_
    · intro oid ho object hobject
      apply hknown
      rw [Read.payloads, List.mem_filterMap]
      refine ⟨(oid, some object), ?_, rfl⟩
      rw [← List.map_prod_left_eq_zip, List.mem_map]
      exact ⟨oid, ho, by rw [hobject]⟩
    · rintro _ rfl
      exact .pure rfl
  | tryHeader oid =>
    have hunion : (Read.tryHeader oid).union db.hash contents =
        .ok (.header ((firstOf contents oid).map fun o ↦ ⟨o.1, o.2.length⟩)) := by
      rw [Read.union, ensure, if_pos hkind]
      rfl
    rw [hunion]
    refine (tryHeader_returns hs (by simpa [Read.oids] using hkind)).bind ?_
    rintro _ rfl
    exact .pure rfl

/-- One read, whatever its IDs: the answer of the union, and a coherent cache. -/
theorem serve_spec (hv : db.ValidCache) (hs : List.Forall₂ ObjectDb.Serves db.layers contents)
    (read : Read) {known known' : Oid → Object → Prop} {s : CacheState}
    (hc : db.Coherent contents known s) (hmono : ∀ oid object, known oid object → known' oid object)
    (hknown : ∀ oid object,
      (oid, object) ∈ Read.payloads (read, read.union db.hash contents) → known' oid object) :
    ∃ s', db.serve read s = some (read.union db.hash contents, s') ∧
      db.Coherent contents known' s' := by
  have hc' : db.Coherent contents known' s := fun i o h ↦ (hc i o h).mono hmono
  by_cases hkind : ∀ oid ∈ read.oids, oid.kind = db.hash
  · obtain ⟨answer, s', hrun, hs', hunion⟩ := serve_returns hv hs hkind hknown s hc'
    exact ⟨s', by rw [hrun, hunion], hs'⟩
  · refine ⟨s, ?_, hc'⟩
    rw [serve_error hkind, Read.union.eq_def, ensure, if_neg hkind]
    rfl

/-- The answers of the union to a sequence of reads. -/
def unionLog (hash : HashKind) (contents : List (Oid → Option Object)) (reads : List Read) :
    List (Read × Except Error ReadAnswer) :=
  reads.map fun read ↦ (read, read.union hash contents)

/-- Every sequence of reads from a coherent state. -/
theorem run_spec (hv : db.ValidCache) (hs : List.Forall₂ ObjectDb.Serves db.layers contents)
    (reads : List Read) {before : List (Read × Except Error ReadAnswer)} {s : CacheState}
    (hc : db.Coherent contents (fun oid object ↦ (oid, object) ∈ before.flatMap Read.payloads) s) :
    ∃ s', db.run reads s = some (unionLog db.hash contents reads, s') ∧
      db.Coherent contents (fun oid object ↦ (oid, object) ∈
        (before ++ unionLog db.hash contents reads).flatMap Read.payloads) s' := by
  induction reads generalizing before s with
  | nil =>
    refine ⟨s, rfl, ?_⟩
    rw [unionLog, List.map_nil, List.append_nil]
    exact hc
  | cons read reads ih =>
    have hold (oid : Oid) (object : Object) (h : (oid, object) ∈ before.flatMap Read.payloads) :
        (oid, object) ∈
          (before ++ [(read, read.union db.hash contents)]).flatMap Read.payloads := by
      rw [List.flatMap_append]
      exact List.mem_append_left _ h
    have hread (oid : Oid) (object : Object)
        (h : (oid, object) ∈ Read.payloads (read, read.union db.hash contents)) :
        (oid, object) ∈
          (before ++ [(read, read.union db.hash contents)]).flatMap Read.payloads := by
      rw [List.flatMap_append]
      exact List.mem_append_right _ (by simpa using h)
    obtain ⟨s₁, h₁, hc₁⟩ := serve_spec hv hs read hc hold hread
    obtain ⟨s₂, h₂, hc₂⟩ := ih hc₁
    refine ⟨s₂, ?_, ?_⟩
    · simp only [run, h₁, h₂, Option.bind_eq_bind, Option.bind_some]
      rfl
    · rw [List.append_assoc] at hc₂
      exact hc₂

/-- Every sequence of payload, batch and header reads on a composition of immutable layers is
answered, ID by ID and in input order, with what the first layer that holds the object holds,
whatever cache there is; the cache then holds at most its entry and byte bounds, only objects
within the object bound, only payloads returned before for their ID, and every object that
entered it is resident or was evicted. -/
theorem run_eq_union {layers : List ObjectDb} {cache : Option (ℕ × CacheOptions)}
    (hnew : LayeredOdb.new layers cache = .ok db)
    (hs : List.Forall₂ ObjectDb.Serves layers contents) (reads : List Read) :
    ∃ s, db.run reads db.initial = some (unionLog db.hash contents reads, s) ∧
      ∀ index options, cache = some (index, options) →
        s.objects.len ≤ options.maxEntries ∧
        min (s.objects.residents.map fun e ↦ e.2.1.2.length).sum u64Max ≤ options.maxBytes ∧
        (∀ e ∈ s.objects.residents, e.2.1.2.length ≤ options.maxObjectBytes ∧
          (e.1.2, e.2.1) ∈ (unionLog db.hash contents reads).flatMap Read.payloads) ∧
        ∃ evicted, s.insertions = s.objects.len + evicted ∧
          s.evictions = min evicted u64Max := by
  obtain ⟨rfl, hcache, hv⟩ := new_eq_ok hnew
  have hinit : db.Coherent contents
      (fun oid object ↦ (oid, object) ∈ ([] : List _).flatMap Read.payloads) db.initial := by
    intro index options hc
    rw [initial, hc]
    exact CacheState.ok_new options _ _
  obtain ⟨s, hrun, hcoh⟩ := run_spec hv hs reads hinit
  refine ⟨s, hrun, fun index options hc ↦ ?_⟩
  obtain ⟨r, slots, evicted, hr, hkeep, hi, he⟩ := hcoh index options (hcache.trans hc)
  have hp := hr.residents_perm
  refine ⟨?_, ?_, ?_, evicted, ?_, he⟩
  · rw [hr.len_eq]
    exact hkeep.length
  · have hweights : (s.objects.residents.map fun e ↦ e.2.1.2.length) =
        s.objects.residents.map fun e ↦ e.2.2 :=
      List.map_congr_left fun e hm ↦ (hkeep.entries e (hp.mem_iff.mp hm)).2.1.symm
    rw [hweights, (hp.map _).sum_eq]
    exact hkeep.bytes
  · intro e hm
    obtain ⟨-, hw, hsize, hknown, -⟩ := hkeep.entries e (hp.mem_iff.mp hm)
    exact ⟨hw ▸ hsize, hknown⟩
  · rw [hr.len_eq]
    exact hi

/-- A small ID. -/
def sampleOid (byte : UInt8) : Oid := sampleId byte

/-- Two layers that both hold the first object, differently, and a second one below. -/
def sampleContents : List (Oid → Option Object) :=
  [fun oid ↦ if oid = sampleOid 1 then some (.blob, [1]) else none,
    fun oid ↦ if oid = sampleOid 1 then some (.blob, [9]) else
      if oid = sampleOid 2 then some (.tree, [2, 2]) else none]

/-- Repeated, mixed and missing IDs over two layers and a cache of one entry between them. -/
theorem run_eq_union_sample :
    ∃ s, (⟨.sha1, sampleContents.map fun content ↦ .ofFind .sha1 none fun oid ↦ .ok (content oid),
        some (1, ⟨10, 1, 10⟩)⟩ : LayeredOdb).run
        [.tryFindMany [sampleOid 2, sampleOid 1, sampleOid 3, sampleOid 2], .tryFind (sampleOid 2),
          .tryHeader (sampleOid 2)] (.new ⟨10, 1, 10⟩) =
      some ([(.tryFindMany [sampleOid 2, sampleOid 1, sampleOid 3, sampleOid 2],
          .ok (.objects [some (.tree, [2, 2]), some (.blob, [1]), none, some (.tree, [2, 2])])),
        (.tryFind (sampleOid 2), .ok (.object (some (.tree, [2, 2])))),
        (.tryHeader (sampleOid 2), .ok (.header (some ⟨.tree, 2⟩)))], s) := by
  have hnew : LayeredOdb.new
      (sampleContents.map fun content ↦ .ofFind .sha1 none fun oid ↦ .ok (content oid))
      (some (1, ⟨10, 1, 10⟩)) = .ok ⟨.sha1, _, _⟩ := rfl
  obtain ⟨s, hrun, -⟩ := run_eq_union hnew
    (.cons (ObjectDb.serves_ofFind _ _ _) (.cons (ObjectDb.serves_ofFind _ _ _) .nil))
    [.tryFindMany [sampleOid 2, sampleOid 1, sampleOid 3, sampleOid 2], .tryFind (sampleOid 2),
      .tryHeader (sampleOid 2)]
  exact ⟨s, hrun⟩

end LayeredOdb
end Gitility
