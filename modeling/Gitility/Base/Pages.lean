import Gitility.Base.Program
import Mathlib.Data.List.Nodup

/-!
# Following continuations

A paginated call takes a continuation and its own limits, and answers a page that may name the
next continuation. `follow` makes such calls until a page names none. To show that the pages
make up a given list, give what each continuation still has to deliver and show that one call
delivers a nonempty first part of it.
-/

namespace Gitility

variable {C L P ε α : Type}

/-- The pages from `cursor` on, where call number `i` uses `limits i`; at most `n` calls. -/
def follow (call : Option C → L → Outcome ε P) (next : P → Option C) :
    ℕ → (ℕ → L) → Option C → Outcome ε (List P)
  | 0, _, _ => .diverged
  | n + 1, limits, cursor => do
    let page ← call cursor (limits 0)
    match next page with
    | none => pure [page]
    | some cursor => do
      let pages ← follow call next n (fun i ↦ limits (i + 1)) (some cursor)
      return page :: pages

/-- Following gives the same pages however many calls it may make. -/
theorem follow_unique {call : Option C → L → Outcome ε P} {next : P → Option C} {n m : ℕ}
    {limits : ℕ → L} {cursor : Option C} {pages pages' : List P}
    (h : follow call next n limits cursor = .ok pages)
    (h' : follow call next m limits cursor = .ok pages') : pages = pages' := by
  induction n generalizing m limits cursor pages pages' with
  | zero => cases h
  | succ n ih =>
    cases m with
    | zero => cases h'
    | succ m =>
      obtain ⟨page, hpage, h⟩ := Outcome.bind_eq_ok.mp h
      rw [follow, hpage, Outcome.ok_bind] at h'
      cases hnext : next page with
      | none =>
        rw [hnext] at h h'
        exact Outcome.ok.inj (h.symm.trans h')
      | some cursor =>
        rw [hnext] at h h'
        obtain ⟨later, hlater, h⟩ := Outcome.bind_eq_ok.mp h
        obtain ⟨later', hlater', h'⟩ := Outcome.bind_eq_ok.mp h'
        rw [← Outcome.ok.inj h, ← Outcome.ok.inj h', ih hlater hlater']

/-- A page that delivers the first part of `rest`: all of it when it names no continuation, and
otherwise a nonempty part, with the continuation standing for the rest. -/
inductive Delivers (next : P → Option C) (items : P → List α)
    (Rest : Option C → List α → Prop) (rest : List α) (page : P) : Prop where
  | last (hnext : next page = none) (hitems : items page = rest)
  | more (cursor : C) (later : List α) (hnext : next page = some cursor)
      (hsplit : rest = items page ++ later) (hitems : items page ≠ [])
      (hrest : Rest (some cursor) later)

variable {call : Option C → L → Outcome ε P} {next : P → Option C} {items : P → List α}
  {Rest : Option C → List α → Prop} {Good : L → Prop}

/-- Induction over the pages that follow: the property holds of a last page alone, and a page that names a
continuation adds itself to the pages behind it. What a continuation stands for gets smaller. -/
theorem follow_induct {σ : Type} {Stands : Option C → σ → Prop} {size : σ → ℕ}
    {Q : (ℕ → L) → σ → List P → Prop}
    (hcall : ∀ cursor rest limits, Stands cursor rest → Good (limits 0) →
      ∃ page, call cursor (limits 0) = .ok page ∧ ((next page = none ∧ Q limits rest [page]) ∨
        ∃ cursor' later, next page = some cursor' ∧ Stands (some cursor') later ∧ size later < size rest ∧
          ∀ pages, Q (fun i ↦ limits (i + 1)) later pages → Q limits rest (page :: pages)))
    {cursor : Option C} {rest : σ} (hrest : Stands cursor rest) {limits : ℕ → L}
    (hlimits : ∀ i, Good (limits i)) {n : ℕ} (hn : size rest < n) :
    ∃ pages, follow call next n limits cursor = .ok pages ∧ Q limits rest pages := by
  induction n generalizing cursor rest limits with
  | zero => cases hn
  | succ n ih =>
    obtain ⟨page, hpage, hlast | hmore⟩ := hcall cursor rest limits hrest (hlimits 0)
    · obtain ⟨hnext, hlast⟩ := hlast
      refine ⟨[page], ?_, hlast⟩
      rw [follow, hpage, Outcome.ok_bind, hnext]
      rfl
    · obtain ⟨cursor', later, hnext, hlater, hless, hmore⟩ := hmore
      obtain ⟨pages, hpages, hholds⟩ := ih hlater (fun i ↦ hlimits (i + 1)) (by omega)
      refine ⟨page :: pages, ?_, hmore pages hholds⟩
      rw [follow, hpage, Outcome.ok_bind, hnext]
      simp [hpages]

/-- Calls that each deliver the first part of what is left deliver all of it together. Where a
continuation always stands for something, a page names one exactly when the pages up to it leave
something to deliver. -/
theorem follow_delivers
    (hcall : ∀ cursor rest limit, Rest cursor rest → Good limit →
      ∃ page, call cursor limit = .ok page ∧ Delivers next items Rest rest page)
    {cursor : Option C} {rest : List α} (hrest : Rest cursor rest) {limits : ℕ → L}
    (hlimits : ∀ i, Good (limits i)) {n : ℕ} (hn : rest.length < n) :
    ∃ pages, follow call next n limits cursor = .ok pages ∧ pages.flatMap items = rest ∧
      ((∀ cursor later, Rest (some cursor) later → later ≠ []) →
        ∀ i page, pages[i]? = some page →
          ((next page).isSome ↔ (pages.take (i + 1)).flatMap items ≠ rest)) := by
  refine follow_induct (Q := fun _ rest pages ↦ pages.flatMap items = rest ∧
    ((∀ cursor later, Rest (some cursor) later → later ≠ []) → ∀ i page, pages[i]? = some page →
      ((next page).isSome ↔ (pages.take (i + 1)).flatMap items ≠ rest)))
    (fun cursor rest limits hrest hlimit ↦ ?_) hrest hlimits hn
  obtain ⟨page, hpage, hdelivers⟩ := hcall cursor rest (limits 0) hrest hlimit
  refine ⟨page, hpage, ?_⟩
  cases hdelivers with
  | last hnext hitems =>
    refine .inl ⟨hnext, by simp [hitems], fun _ i page' hi ↦ ?_⟩
    obtain ⟨rfl, rfl⟩ : i = 0 ∧ page = page' := by
      cases i with
      | zero => simpa using hi
      | succ i => cases hi
    simp [hnext, hitems]
  | more cursor' later hnext hsplit hitems hrest' =>
    have hless : later.length < rest.length := by
      rw [hsplit, List.length_append]
      have := List.length_pos_iff.mpr hitems
      omega
    refine .inr ⟨cursor', later, hnext, hrest', hless, fun pages ⟨hall, hmarks⟩ ↦ ?_⟩
    refine ⟨by rw [List.flatMap_cons, hall, hsplit], fun hstands i page' hi ↦ ?_⟩
    cases i with
    | zero =>
      obtain rfl : page = page' := by simpa using hi
      simp [hnext, hsplit, hstands cursor' later hrest']
    | succ i =>
      rw [hmarks hstands i page' hi, hsplit, List.take_succ_cons, List.flatMap_cons]
      simp

/-- A list cut into the pages that some limits allow; at most `n` pages. -/
def chunked : ℕ → (ℕ → ℕ) → List α → List (List α)
  | 0, _, _ => []
  | n + 1, limits, rest =>
    if rest.length ≤ limits 0 then [rest]
    else rest.take (limits 0) :: chunked n (fun i ↦ limits (i + 1)) (rest.drop (limits 0))

/-- Where each call takes as much as its limit allows, the pages that follow are the chunks of what was left. -/
theorem follow_chunked {call : Option C → ℕ → Outcome ε P} {Good : ℕ → Prop}
    (hcall : ∀ cursor rest limit, Rest cursor rest → Good limit → ∃ page, call cursor limit = .ok page ∧
      items page = rest.take limit ∧ Delivers next items Rest rest page)
    (hstands : ∀ cursor later, Rest (some cursor) later → later ≠ [])
    {cursor : Option C} {rest : List α} (hrest : Rest cursor rest) {limits : ℕ → ℕ}
    (hlimits : ∀ i, Good (limits i)) {n : ℕ} {pages : List P}
    (hpages : follow call next n limits cursor = .ok pages) :
    pages.map items = chunked n limits rest := by
  induction n generalizing cursor rest limits pages with
  | zero => cases hpages
  | succ n ih =>
    obtain ⟨page, hpage, htake, hdelivers⟩ := hcall cursor rest (limits 0) hrest (hlimits 0)
    rw [follow, hpage, Outcome.ok_bind] at hpages
    cases hdelivers with
    | last hnext hitems =>
      rw [hnext] at hpages
      cases hpages
      have hall : rest.length ≤ limits 0 := by
        have hlen := congrArg List.length (htake.symm.trans hitems)
        rw [List.length_take] at hlen
        omega
      rw [chunked, if_pos hall, List.map_singleton, hitems]
    | more cursor' later hnext hsplit hitems hrest' =>
      rw [hnext] at hpages
      obtain ⟨pages', hpages', hcons⟩ := Outcome.bind_eq_ok.mp hpages
      cases hcons
      have hlater : later = rest.drop (limits 0) := by
        have hsame : items page ++ later = items page ++ rest.drop (limits 0) := by
          rw [← hsplit, htake, List.take_append_drop]
        exact List.append_cancel_left hsame
      have hmore : ¬ rest.length ≤ limits 0 := by
        have hne := hstands cursor' later hrest'
        rwa [hlater, Ne, List.drop_eq_nil_iff] at hne
      rw [chunked, if_neg hmore, List.map_cons, htake, ih hrest' (fun i ↦ hlimits (i + 1)) hpages', hlater]

/-- A page that delivers ahead of itself: what the pages behind it deliver is delivered once when it looks at
none of it, and they deliver it once. -/
theorem once_iff {α : Type} [DecidableEq α] {own early later : List α} {pages : List (List α)}
    (hnodup : (own ++ (early ++ later)).Nodup) (hpages : ∀ page ∈ pages, ∀ a ∈ page, a ∈ early ++ later)
    (hall : ∀ a ∈ early ++ later, ∃ page ∈ pages, a ∈ page) :
    (∀ a ∈ own ++ (early ++ later), ((own ++ early) :: pages).countP (a ∈ ·) = 1) ↔
      early = [] ∧ ∀ a ∈ early ++ later, pages.countP (a ∈ ·) = 1 := by
  have hdisjoint := List.disjoint_of_nodup_append hnodup
  constructor
  · intro honce
    have hearly : early = [] := by
      refine List.eq_nil_iff_forall_not_mem.mpr fun a ha ↦ ?_
      have hcount := honce a (List.mem_append_right _ (List.mem_append_left _ ha))
      obtain ⟨page, hpage, hmem⟩ := hall a (List.mem_append_left _ ha)
      have hpos : 0 < pages.countP (a ∈ ·) := List.countP_pos_iff.mpr ⟨page, hpage, by simpa using hmem⟩
      rw [List.countP_cons_of_pos (by simp [ha])] at hcount
      omega
    refine ⟨hearly, fun a ha ↦ ?_⟩
    have hcount := honce a (List.mem_append_right _ ha)
    have hown : a ∉ own ++ early := by
      rw [hearly, List.append_nil]
      exact fun h ↦ hdisjoint h ha
    rwa [List.countP_cons_of_neg (by simpa using hown)] at hcount
  · rintro ⟨rfl, honce⟩ a ha
    rcases List.mem_append.mp ha with ha | ha
    · have hnone : pages.countP (a ∈ ·) = 0 :=
        List.countP_eq_zero.mpr fun page hpage hmem ↦ hdisjoint ha (hpages page hpage a (by simpa using hmem))
      rw [List.countP_cons_of_pos (by simp [ha]), hnone]
    · have hown : a ∉ own ++ [] := by
        rw [List.append_nil]
        exact fun h ↦ hdisjoint h ha
      rw [List.countP_cons_of_neg (by simpa using hown), honce a ha]

/-- The calls that following makes from `start` on, with their numbers. -/
inductive Called (call : Option C → L → Outcome ε P) (next : P → Option C) (limits : ℕ → L)
    (start : Option C) : ℕ → Option C → Prop where
  | first : Called call next limits start 0 start
  | next {i : ℕ} {cursor : Option C} {page : P} {cursor' : C}
      (hcalled : Called call next limits start i cursor)
      (hpage : call cursor (limits i) = .ok page) (hnext : next page = some cursor') :
      Called call next limits start (i + 1) (some cursor')

variable {limits : ℕ → L} {start cursor : Option C} {i : ℕ}

/-- Every call that following has made was answered with a page. -/
theorem Called.answered {n : ℕ} {pages : List P} (h : Called call next limits start i cursor)
    (hfollow : follow call next n limits start = .ok pages) :
    ∃ page, call cursor (limits i) = .ok page := by
  -- From each call on, following has ended too.
  have hrest : ∃ m pages', follow call next m (fun j ↦ limits (i + j)) cursor = .ok pages' := by
    induction h with
    | first => exact ⟨n, pages, by simpa using hfollow⟩
    | @next i cursor page cursor' hcalled hpage hnext ih =>
      obtain ⟨m, pages', hm⟩ := ih
      cases m with
      | zero => cases hm
      | succ m =>
        rw [follow, Nat.add_zero, hpage, Outcome.ok_bind, hnext] at hm
        obtain ⟨later, hlater, -⟩ := Outcome.bind_eq_ok.mp hm
        refine ⟨m, later, ?_⟩
        rw [← hlater]
        congr 1
        funext j
        congr 1
        omega
  obtain ⟨m, pages', hm⟩ := hrest
  cases m with
  | zero => cases hm
  | succ m =>
    obtain ⟨page, hpage, -⟩ := Outcome.bind_eq_ok.mp hm
    exact ⟨page, hpage⟩

/-- When every call that is made succeeds and delivers the first part of what is left, following
ends and delivers all of it; its last call is one that names no continuation. -/
theorem follow_of_called
    (hcalls : ∀ i cursor, Called call next limits start i cursor →
      ∃ page, call cursor (limits i) = .ok page)
    (hcall : ∀ cursor rest limit page, Rest cursor rest → call cursor limit = .ok page →
      Delivers next items Rest rest page)
    (hcalled : Called call next limits start i cursor) {rest : List α} (hrest : Rest cursor rest)
    {n : ℕ} (hn : rest.length < n) :
    ∃ pages, follow call next n (fun j ↦ limits (i + j)) cursor = .ok pages ∧
      pages.flatMap items = rest ∧
      ∃ cursor limit page rest, Rest cursor rest ∧ call cursor limit = .ok page ∧
        next page = none := by
  induction n generalizing i cursor rest with
  | zero => cases hn
  | succ n ih =>
    obtain ⟨page, hpage⟩ := hcalls i cursor hcalled
    rw [follow, Nat.add_zero, hpage, Outcome.ok_bind]
    cases hcall cursor rest (limits i) page hrest hpage with
    | last hnext hitems =>
      refine ⟨[page], by rw [hnext]; rfl, by simpa using hitems, cursor, limits i, page, rest,
        hrest, hpage, hnext⟩
    | more cursor' later hnext hsplit hitems hrest' =>
      have hless : later.length < n := by
        rw [hsplit, List.length_append] at hn
        have := List.length_pos_iff.mpr hitems
        omega
      obtain ⟨pages, hpages, hall, hlast⟩ := ih (hcalled.next hpage hnext) hrest' hless
      have hshift : (fun j ↦ limits (i + (j + 1))) = fun j ↦ limits (i + 1 + j) := by
        funext j
        congr 1
        omega
      refine ⟨page :: pages, ?_, ?_, hlast⟩
      · rw [hnext, hshift]
        simp [hpages]
      · rw [List.flatMap_cons, hall, hsplit]

end Gitility
