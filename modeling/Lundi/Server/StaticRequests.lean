import Lundi.Core.RequestTarget
import Lundi.Server.HeadRequests
import Lundi.StaticFiles.Completeness

/-!
# Requests for static files

A request for a file on its way through the server: the target is decoded by `parse_headers`, no
route of `dispatch` matches, and the single mount is asked.

* `dispatch_file`: what `dispatch` answers to a request for a file;
* `dispatch_encoded_file`: the same for a request head in which the path is encoded.
-/

namespace Lundi

open Search

variable {σ : Type} {w : World} {app : App σ} {m : StaticMount} {names : List Bytes}
variable {data path : Bytes}

/-- The parameters of a route play no part. -/
theorem AsksFor.withParams {fs : FileSystem} {req : Request} (h : AsksFor fs m names data path req)
    (params : List ParamEntry) : AsksFor fs m names data path { req with params := params } :=
  ⟨h.below, h.regular, h.small, h.path_eq, h.no_if_none_match, h.no_if_modified_since⟩

/-- A `GET` request for a file that no route takes is answered with the file, or with 404 if a name
on the way holds two dots in a row. -/
theorem dispatch_file (hmounts : app.staticFiles = ⟨[m]⟩) {c : Call σ}
    (h : AsksFor w.fs m names data c.req.path c.req) (hget : c.req.method.bytes = ascii "GET")
    (hroute : (app.router.resolve (ascii "GET") c.req.path c.req.params).1 = none) :
    ∃ res : Response, Invocation.result (app.dispatch w c) = some (.ok res) ∧
      ((∀ name ∈ names, ¬ ascii ".." <:+: name) → res.status = 200 ∧ res.body = data) ∧
      ((∃ name ∈ names, ascii ".." <:+: name) → res.status = 404) := by
  have hne : ascii "GET" ≠ ascii "HEAD" := by decide
  obtain ⟨res, hstatus, hbody, hserve⟩ :=
    (h.withParams (app.router.resolve (ascii "GET") c.req.path c.req.params).2).tryServe_eq w.clock
  rw [App.dispatch, hget]
  generalize app.router.resolve (ascii "GET") c.req.path c.req.params = resolved at hroute hserve
  obtain ⟨found, params⟩ := resolved
  obtain rfl : found = none := hroute
  simp only [App.dispatchHead, hget, if_neg hne, App.dispatchStatic, true_or, true_and,
    hmounts, StaticFileHandler.hasMounts, List.isEmpty_cons, Bool.not_false, if_true, hserve]
  by_cases hdots : find (ascii "..") ([slash].intercalate names) = none
  · rw [if_pos hdots]
    refine ⟨res, rfl, fun _ => ⟨hstatus, hbody⟩, ?_⟩
    rintro ⟨name, hmem, hname⟩
    exact absurd hname (find_dots_iff.mp hdots name hmem)
  · rw [if_neg hdots]
    exact ⟨_, rfl, fun hall => absurd (find_dots_iff.mpr hall) hdots, fun _ => rfl⟩

/-- However a client encodes the path of a file, the file is found: blanks, dots and bytes of any
kind may stand in its name. -/
theorem dispatch_encoded_file (hmounts : app.staticFiles = ⟨[m]⟩) {head : StringView}
    {target : Bytes} {entries : List QueryEntry}
    (h : AsksFor w.fs m names data path (parseHeaders head))
    (hline : HasRequestLine head (ascii "GET") target) (htarget : EncodesTarget path entries target)
    (hroute : (app.router.resolve (ascii "GET") path (parseHeaders head).params).1 = none)
    (hdots : ∀ name ∈ names, ¬ ascii ".." <:+: name) (user : σ) :
    ∃ res : Response, Invocation.result (app.dispatch w ⟨user, parseHeaders head⟩) =
      some (.ok res) ∧ res.status = 200 ∧ res.body = data := by
  obtain ⟨hm, ht, version, rest, hunbroken, hdata⟩ := hline
  obtain ⟨hmethod, hraw⟩ := requestLine_parseHeaders hm ht hunbroken hdata
  have hpath : (parseHeaders head).path = path := by
    rw [path_parseHeaders, hraw]
    exact htarget.decoded.1
  rw [← hpath] at h hroute
  obtain ⟨res, hres, hserved, -⟩ := dispatch_file hmounts (c := ⟨user, parseHeaders head⟩) h
    hmethod hroute
  exact ⟨res, hres, hserved hdots⟩

end Lundi
