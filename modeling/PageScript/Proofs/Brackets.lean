import Mathlib.Computability.Language
import PageScript.Conversion.Call
import PageScript.Context

/-!
# The brackets of a document

The calls that announce pages and their objects, without what stands between them.
-/
namespace PageScript

open scoped Computability

/-- The beginning or end of a page, or of an object of a page. -/
inductive Bracket where
  | beginPage
  | endPage
  | beginPath
  | endPath
  | beginText
  | endText
  deriving DecidableEq

namespace Bracket

def object : Language Bracket := {[beginPath, endPath]} + {[beginText, endText]}

def page : Language Bracket := {[beginPage]} * object∗ * {[endPage]}

def documents : Language Bracket := page∗

/-- The context behind a bracket, if the bracket may stand in the context before it. -/
def follow? : Context → Bracket → Option Context
  | .outside, beginPage => some .page
  | .page, endPage => some .outside
  | .page, beginPath => some .path
  | .path, endPath => some .page
  | .page, beginText => some .text
  | .text, endText => some .page
  | _, _ => none

def followAll? (context : Context) (word : List Bracket) : Option Context :=
  word.foldlM follow? context

@[simp] theorem followAll?_nil (context : Context) : followAll? context [] = some context := rfl

@[simp] theorem followAll?_cons (context : Context) (b : Bracket) (word : List Bracket) :
    followAll? context (b :: word) = (follow? context b).bind (followAll? · word) := rfl

/-- What is still to come in a context until a document may end. -/
def rest : Context → Language Bracket
  | .outside => documents
  | .page => object∗ * {[endPage]} * documents
  | .path => {[endPath]} * (object∗ * {[endPage]} * documents)
  | .text => {[endText]} * (object∗ * {[endPage]} * documents)

theorem append_mem_kstar {l : Language Bracket} {v w : List Bracket} (hv : v ∈ l) (hw : w ∈ l∗) :
    v ++ w ∈ l∗ :=
  Set.mem_of_mem_of_subset (Language.append_mem_mul hv hw) (mul_kstar_le_kstar (a := l))

theorem cons_mem_mul {l : Language Bracket} (b : Bracket) {w : List Bracket} (hw : w ∈ l) :
    b :: w ∈ {[b]} * l :=
  Language.append_mem_mul (Set.mem_singleton [b]) hw

theorem object_append_mem {v w : List Bracket} (hv : v ∈ object)
    (hw : w ∈ object∗ * {[endPage]} * documents) :
    v ++ w ∈ object∗ * {[endPage]} * documents := by
  obtain ⟨pageRest, ⟨objects, ho, e, he, rfl⟩, pages, hp, rfl⟩ := hw
  rw [← List.append_assoc, ← List.append_assoc]
  exact Language.append_mem_mul (Language.append_mem_mul (append_mem_kstar hv ho) he) hp

theorem cons_mem_rest {context next : Context} {b : Bracket} {word : List Bracket}
    (hb : follow? context b = some next) (hw : word ∈ rest next) : b :: word ∈ rest context := by
  cases context <;> cases b <;> cases hb
  case outside.beginPage.refl =>
    obtain ⟨pageRest, ⟨objects, ho, e, he, rfl⟩, pages, hp, rfl⟩ := hw
    have hpage : beginPage :: objects ++ e ∈ page :=
      Language.append_mem_mul (cons_mem_mul beginPage ho) he
    exact append_mem_kstar hpage hp
  case page.endPage.refl =>
    have hend : [] ++ [endPage] ∈ object∗ * {[endPage]} :=
      Language.append_mem_mul (Language.nil_mem_kstar object) (Set.mem_singleton _)
    exact Language.append_mem_mul hend hw
  case page.beginPath.refl =>
    obtain ⟨e, rfl, w, hw, rfl⟩ := hw
    exact object_append_mem (v := [beginPath, endPath]) (.inl rfl) hw
  case page.beginText.refl =>
    obtain ⟨e, rfl, w, hw, rfl⟩ := hw
    exact object_append_mem (v := [beginText, endText]) (.inr rfl) hw
  case path.endPath.refl => exact cons_mem_mul endPath hw
  case text.endText.refl => exact cons_mem_mul endText hw

theorem mem_rest {context : Context} {word : List Bracket}
    (h : followAll? context word = some .outside) : word ∈ rest context := by
  induction word generalizing context with
  | nil =>
    cases h
    exact Language.nil_mem_kstar page
  | cons b word ih =>
    obtain ⟨next, hb, hw⟩ := Option.bind_eq_some_iff.mp h
    exact cons_mem_rest hb (ih hw)

/-- Brackets that lead out of all pages form a document. -/
theorem mem_documents {word : List Bracket} (h : followAll? .outside word = some .outside) :
    word ∈ documents :=
  mem_rest h

/-- What closes all that is open. -/
def closing : Context → List Bracket
  | .outside => []
  | .page => [endPage]
  | .path => [endPath, endPage]
  | .text => [endText, endPage]

/-- Brackets that may follow each other can be closed to form a document. -/
theorem append_closing_mem_documents {word : List Bracket} {context : Context}
    (h : followAll? .outside word = some context) : word ++ closing context ∈ documents := by
  refine mem_documents ?_
  rw [followAll?, List.foldlM_append, ← followAll?, h]
  cases context <;> rfl

/-- Pages are left only where they end. -/
theorem eq_endPage_of_follow {context : Context} {b : Bracket}
    (h : follow? context b = some .outside) : b = endPage := by
  cases context <;> cases b <;> cases h
  rfl

theorem count_follow {context next : Context} {b : Bracket} (h : follow? context b = some next) :
    [b].count beginPage + (if context = .outside then 0 else 1) =
      [b].count endPage + if next = .outside then 0 else 1 := by
  cases context <;> cases b <;> cases h <;> rfl

/-- A page that has begun has ended, unless it is still open. -/
theorem count_beginPage {word : List Bracket} {context next : Context}
    (h : followAll? context word = some next) :
    word.count beginPage + (if context = .outside then 0 else 1) =
      word.count endPage + if next = .outside then 0 else 1 := by
  induction word generalizing context with
  | nil =>
    cases h
    simp
  | cons b word ih =>
    obtain ⟨between, hb, hw⟩ := Option.bind_eq_some_iff.mp h
    have hfirst := count_follow hb
    have hrest := ih hw
    rw [← List.singleton_append, List.count_append, List.count_append]
    omega

end Bracket

def Call.bracket? : Call → Option Bracket
  | .beginPage _ => some .beginPage
  | .endPage => some .endPage
  | .beginPath => some .beginPath
  | .endPath => some .endPath
  | .beginText => some .beginText
  | .endText => some .endText
  | _ => none

def brackets (calls : List Call) : List Bracket := calls.filterMap Call.bracket?

end PageScript
