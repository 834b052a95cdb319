import Lundi.Core.HttpDate
import Lundi.StaticFiles.Conditional

/-!
# Revalidation with the dates of the C library

What a client gets that gives validators of an earlier answer back, when dates are formatted and
parsed by the functions of the C library. `tryServe_echoed` covers files that have changed and files
that have not, mounts with any of the two validators, and clients that give back any of them.
-/

namespace Lundi

/-- The time functions of the C library, with the conversion of file times left open. -/
def libraryClock (toTimeT : ℤ → ℤ) : Clock := ⟨toTimeT, httpDate, readHttpDate⟩

/-- The library reads its own dates back. -/
theorem dateInverse_libraryClock (toTimeT toTimeT' : ℤ → ℤ) {t : ℤ} (h : HasFourDigitYear t) :
    DateInverse (libraryClock toTimeT) (libraryClock toTimeT') t := by
  have hne : httpDate t ≠ [] := by
    intro hnil
    have hlength := length_httpDate h
    rw [hnil] at hlength
    exact absurd hlength (by decide)
  constructor
  · simp only [libraryClock]
    exact readHttpDate_httpDate h
  · simp only [libraryClock]
    exact hne

/-- A confirmation has no body, and it is given when a check succeeds; otherwise the file is
sent. -/
theorem answerOf_confirmed_or_sent (clock : Clock) (options : StaticOptions) (canonical : Bytes)
    (f : FileState) (req : Request) :
    if etagMatches options (etagOf options f.data.length f.mtime) req = true ∨
        notModifiedSince clock options f.mtime req = true then
      (answerOf clock options canonical f req).status = 304 ∧
        (answerOf clock options canonical f req).body = []
    else
      (answerOf clock options canonical f req).status = 200 ∧
        (answerOf clock options canonical f req).body = f.data := by
  unfold answerOf
  by_cases htag : etagMatches options (etagOf options f.data.length f.mtime) req = true
  · simp [htag, etagResponse, status_setMaxAge, Response.setHeader]
  · by_cases hdate : notModifiedSince clock options f.mtime req = true
    · simp [htag, hdate, notModifiedResponse, status_setMaxAge, status_setUnlessEmpty]
    · simp [htag, hdate, status_fileResponse, body_fileResponse]

section Revalidation

variable {h : StaticFileHandler} {m : StaticMount} {fs₁ fs₂ : FileSystem}
variable {toTimeT₁ toTimeT₂ : ℤ → ℤ} {path canonical : Bytes} {req₁ req₂ : Request}
variable {f₁ f₂ : FileState} {res₁ : Response}

/-- What the validators of the first answer that a request gives back confirm of the second file:
the size and the second are the same, or the date is no later than one that is not the mark of a
failure. -/
def Confirmed (req : Request) (toTimeT₁ toTimeT₂ : ℤ → ℤ) (f₁ f₂ : FileState) : Prop :=
  (req.findHeaderCi (ascii "if-none-match")).isSome = true ∧ f₁.version = f₂.version ∨
    (req.findHeaderCi (ascii "if-modified-since")).isSome = true ∧ toTimeT₁ f₁.mtime ≠ -1 ∧
      toTimeT₂ f₂.mtime ≤ toTimeT₁ f₁.mtime

instance (req : Request) (toTimeT₁ toTimeT₂ : ℤ → ℤ) (f₁ f₂ : FileState) :
    Decidable (Confirmed req toTimeT₁ toTimeT₂ f₁ f₂) :=
  inferInstanceAs (Decidable (_ ∧ _ ∨ _ ∧ _ ∧ _))

/-- A request that gives back validators of an earlier answer, both or one of them: the file is
confirmed without a body when they allow it, and sent in its present state otherwise. The entity tag
tells the size and the second of the file, and the dates are those of the C library, so nothing else
decides: neither the other bytes of the file, nor the conversion of file times beyond its values for
the two states. A date that is given back has a year of four digits. -/
theorem tryServe_echoed (hserved₁ : ServedBy h m fs₁ (libraryClock toTimeT₁) path req₁ canonical f₁)
    (hserved₂ : ServedBy h m fs₂ (libraryClock toTimeT₂) path req₂ canonical f₂)
    (hres₁ : h.tryServe fs₁ (libraryClock toTimeT₁) path req₁ = .ok (some res₁))
    (hstatus₁ : res₁.status = 200) (hback : GivesBack req₂ res₁)
    (hyear : (req₂.findHeaderCi (ascii "if-modified-since")).isSome = true →
      HasFourDigitYear (toTimeT₁ f₁.mtime)) :
    ∃ res₂, h.tryServe fs₂ (libraryClock toTimeT₂) path req₂ = .ok (some res₂) ∧
      if Confirmed req₂ toTimeT₁ toTimeT₂ f₁ f₂ then res₂.status = 304 ∧ res₂.body = []
      else res₂.status = 200 ∧ res₂.body = f₂.data := by
  rw [hserved₁.tryServe_eq] at hres₁
  obtain rfl : answerOf (libraryClock toTimeT₁) m.options canonical f₁ req₁ = res₁ := by
    simpa using hres₁
  rw [answerOf_eq_of_status hstatus₁] at hback
  obtain ⟨hsent, hsent'⟩ := sent_fileResponse m.options canonical f₁.data
    (etagOf m.options f₁.data.length f₁.mtime)
    (lastModOf (libraryClock toTimeT₁) m.options f₁.mtime)
  have hdate : (req₂.findHeaderCi (ascii "if-modified-since")).isSome = true →
      DateInverse (libraryClock toTimeT₁) (libraryClock toTimeT₂) (toTimeT₁ f₁.mtime) :=
    fun hgiven => dateInverse_libraryClock toTimeT₁ toTimeT₂ (hyear hgiven)
  -- Each check succeeds for what is given back, and for that only.
  have hchecks : (etagMatches m.options (etagOf m.options f₂.data.length f₂.mtime) req₂ = true ∨
      notModifiedSince (libraryClock toTimeT₂) m.options f₂.mtime req₂ = true) ↔
        Confirmed req₂ toTimeT₁ toTimeT₂ f₁ f₂ :=
    or_congr (etagMatches_iff f₂ hback hsent) (notModifiedSince_iff f₂ hdate hback hsent')
  refine ⟨_, hserved₂.tryServe_eq, ?_⟩
  have hanswer := answerOf_confirmed_or_sent (libraryClock toTimeT₂) m.options canonical f₂ req₂
  simpa only [hchecks] using hanswer

end Revalidation

theorem answerOf_helloAt :
    (answerOf (libraryClock systemTime) wwwMount.options (pathString wwwPlace) (helloAt 1)
      .empty).status = 200 := by
  decide +kernel

theorem echoes_answerOf_helloAt :
    Echoes echoRequest (answerOf (libraryClock systemTime) wwwMount.options (pathString wwwPlace)
      (helloAt 1) .empty) := by
  constructor <;> decide +kernel

/-- A request with nothing but the entity tag of the second date. -/
def tagRequest : Request :=
  parseHeaders ⟨.readBuffer 0, 0, ascii "GET /a.txt HTTP/1.1\r\n" ++
    ascii "If-None-Match: W/\"fffffffeaf05a3a1-5\"\r\n\r\n"⟩

theorem givesBack_answerOf_helloAt :
    GivesBack tagRequest (answerOf (libraryClock systemTime) wwwMount.options (pathString wwwPlace)
      (helloAt 1) .empty) where
  ifNoneMatch inm hinm := by
    have htag : (tagRequest.findHeaderCi (ascii "if-none-match")).map StringView.bytes =
        (answerOf (libraryClock systemTime) wwwMount.options (pathString wwwPlace) (helloAt 1)
          .empty).sent (ascii "ETag") := by decide +kernel
    rw [← htag, hinm, Option.map_some]
  ifModifiedSince ims hims := by
    have hnone : tagRequest.findHeaderCi (ascii "if-modified-since") = none := by decide +kernel
    rw [hnone] at hims
    cases hims

/-- A file that is replaced by a later one, and one that is replaced by an earlier one. The date
confirms the earlier one, the entity tag does not. -/
theorem tryServe_echoed_helloAt :
    (∃ res₂, StaticFileHandler.tryServe ⟨[wwwMount]⟩
        (sampleSite.replaceFile wwwPlace (helloAt 2).data (helloAt 2).mtime)
        (libraryClock systemTime) (ascii "/a.txt") echoRequest = .ok (some res₂) ∧
      if Confirmed echoRequest systemTime systemTime (helloAt 1) (helloAt 2) then
        res₂.status = 304 ∧ res₂.body = []
      else res₂.status = 200 ∧ res₂.body = (helloAt 2).data) ∧
    (∃ res₂, StaticFileHandler.tryServe ⟨[wwwMount]⟩
        (sampleSite.replaceFile wwwPlace (helloAt 0).data (helloAt 0).mtime)
        (libraryClock systemTime) (ascii "/a.txt") tagRequest = .ok (some res₂) ∧
      if Confirmed tagRequest systemTime systemTime (helloAt 1) (helloAt 0) then
        res₂.status = 304 ∧ res₂.body = []
      else res₂.status = 200 ∧ res₂.body = (helloAt 0).data) ∧
    ¬ Confirmed echoRequest systemTime systemTime (helloAt 1) (helloAt 2) ∧
    Confirmed echoRequest systemTime systemTime (helloAt 1) (helloAt 0) ∧
    ¬ Confirmed tagRequest systemTime systemTime (helloAt 1) (helloAt 0) := by
  have hserved₁ := servedBy_wwwMount (libraryClock systemTime) .empty (length_helloAt 1)
  have hlater := servedBy_wwwMount (libraryClock systemTime) echoRequest (length_helloAt 2)
  have hearlier := servedBy_wwwMount (libraryClock systemTime) tagRequest (length_helloAt 0)
  have hyear : HasFourDigitYear (systemTime (helloAt 1).mtime) := by decide +kernel
  refine ⟨?_, ?_, by decide +kernel, by decide +kernel, by decide +kernel⟩
  · exact tryServe_echoed hserved₁ hlater hserved₁.tryServe_eq answerOf_helloAt
      echoes_answerOf_helloAt.givesBack fun _ => hyear
  · exact tryServe_echoed hserved₁ hearlier hserved₁.tryServe_eq answerOf_helloAt
      givesBack_answerOf_helloAt fun _ => hyear

end Lundi
