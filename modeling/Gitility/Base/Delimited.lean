import Mathlib.Data.List.Basic
import Mathlib.Data.Nat.Notation

/-!
# Encodings that delimit themselves

An encoding delimits itself when what is written behind a value never changes how the value is read. Fields
that do so can be written one behind another, and the whole text is then read in one way only.
-/

namespace Gitility

variable {α β σ : Type}

/-- Texts that begin with encoded values agree only when the values and the rests do. -/
def Delimited (encode : α → List σ) (valid : α → Prop) : Prop :=
  ∀ a b, valid a → valid b → ∀ s t, encode a ++ s = encode b ++ t → a = b ∧ s = t

namespace Delimited

/-- A field of one width. -/
theorem ofLength {encode : α → List σ} {valid : α → Prop} (n : ℕ) (hlength : ∀ a, (encode a).length = n)
    (hinj : ∀ a b, valid a → valid b → encode a = encode b → a = b) : Delimited encode valid := by
  intro a b ha hb s t h
  obtain ⟨hencode, hrest⟩ := List.append_inj h ((hlength a).trans (hlength b).symm)
  exact ⟨hinj a b ha hb hencode, hrest⟩

/-- A text behind the field of its length. -/
theorem framed {field : ℕ → List σ} {bound : ℕ} (h : Delimited field (· < bound)) :
    Delimited (fun text : List σ ↦ field text.length ++ text) (·.length < bound) := by
  intro a b ha hb s t heq
  rw [List.append_assoc, List.append_assoc] at heq
  obtain ⟨hlength, hrest⟩ := h _ _ ha hb _ _ heq
  exact List.append_inj hrest hlength

/-- One value behind another. -/
theorem prod {encode : α → List σ} {encode' : β → List σ} {valid : α → Prop} {valid' : β → Prop}
    (h : Delimited encode valid) (h' : Delimited encode' valid') :
    Delimited (fun value : α × β ↦ encode value.1 ++ encode' value.2)
      (fun value ↦ valid value.1 ∧ valid' value.2) := by
  intro a b ha hb s t heq
  rw [List.append_assoc, List.append_assoc] at heq
  obtain ⟨hfirst, hrest⟩ := h _ _ ha.1 hb.1 _ _ heq
  obtain ⟨hsecond, hrest⟩ := h' _ _ ha.2 hb.2 _ _ hrest
  exact ⟨Prod.ext hfirst hsecond, hrest⟩

/-- A value that may be missing, behind a tag that says whether it is. -/
theorem optional {encode : α → List σ} {valid : α → Prop} (h : Delimited encode valid) {absent present : σ}
    (htags : absent ≠ present) :
    Delimited (fun value : Option α ↦ value.elim [absent] fun a ↦ present :: encode a)
      (fun value ↦ ∀ a ∈ value, valid a) := by
  intro a b ha hb s t heq
  cases a with
  | none =>
    cases b with
    | none => exact ⟨rfl, (List.cons.inj heq).2⟩
    | some b => exact absurd (List.cons.inj heq).1 htags
  | some a =>
    cases b with
    | none => exact absurd (List.cons.inj heq).1.symm htags
    | some b =>
      obtain ⟨rfl, hrest⟩ := h a b (ha a rfl) (hb b rfl) _ _ (List.cons.inj heq).2
      exact ⟨rfl, hrest⟩

/-- As many values on both sides. -/
theorem flatMap_of_length {encode : α → List σ} {valid : α → Prop} (h : Delimited encode valid) {as bs : List α}
    (has : ∀ a ∈ as, valid a) (hbs : ∀ b ∈ bs, valid b) (hcount : as.length = bs.length) {s t : List σ}
    (heq : as.flatMap encode ++ s = bs.flatMap encode ++ t) : as = bs ∧ s = t := by
  induction as generalizing bs with
  | nil =>
    obtain rfl := List.length_eq_zero_iff.mp hcount.symm
    exact ⟨rfl, heq⟩
  | cons a as ih =>
    cases bs with
    | nil => cases hcount
    | cons b bs =>
      rw [List.flatMap_cons, List.flatMap_cons, List.append_assoc, List.append_assoc] at heq
      obtain ⟨rfl, hrest⟩ := h a b (has a List.mem_cons_self) (hbs b List.mem_cons_self) _ _ heq
      obtain ⟨rfl, htail⟩ := ih (fun x hx ↦ has x (List.mem_cons_of_mem _ hx))
        (fun x hx ↦ hbs x (List.mem_cons_of_mem _ hx)) (Nat.succ.inj hcount) hrest
      exact ⟨rfl, htail⟩

/-- A list of values needs no count where what follows it has one length. -/
theorem flatMap {encode : α → List σ} {valid : α → Prop} (h : Delimited encode valid)
    (hencode : ∀ a, encode a ≠ []) {as bs : List α} (has : ∀ a ∈ as, valid a) (hbs : ∀ b ∈ bs, valid b)
    {s t : List σ} (hlength : s.length = t.length) (heq : as.flatMap encode ++ s = bs.flatMap encode ++ t) :
    as = bs ∧ s = t := by
  -- a list that ends first leaves fewer symbols than the other one still has
  have hlonger : ∀ (a : α) (rest : List σ), (encode a ++ rest).length ≠ 0 := by
    intro a rest hzero
    exact hencode a (List.append_eq_nil_iff.mp (List.length_eq_zero_iff.mp hzero)).1
  induction as generalizing bs with
  | nil =>
    cases bs with
    | nil => exact ⟨rfl, heq⟩
    | cons b bs =>
      have hlengths := congrArg List.length heq
      have hb := hlonger b (bs.flatMap encode)
      rw [← List.flatMap_cons] at hb
      rw [List.flatMap_nil, List.nil_append, List.length_append] at hlengths
      omega
  | cons a as ih =>
    cases bs with
    | nil =>
      have hlengths := congrArg List.length heq
      have ha := hlonger a (as.flatMap encode)
      rw [← List.flatMap_cons] at ha
      rw [List.flatMap_nil, List.nil_append, List.length_append] at hlengths
      omega
    | cons b bs =>
      rw [List.flatMap_cons, List.flatMap_cons, List.append_assoc, List.append_assoc] at heq
      obtain ⟨rfl, hrest⟩ := h a b (has a List.mem_cons_self) (hbs b List.mem_cons_self) _ _ heq
      obtain ⟨rfl, htail⟩ := ih (fun x hx ↦ has x (List.mem_cons_of_mem _ hx))
        (fun x hx ↦ hbs x (List.mem_cons_of_mem _ hx)) hrest
      exact ⟨rfl, htail⟩

end Delimited

end Gitility
