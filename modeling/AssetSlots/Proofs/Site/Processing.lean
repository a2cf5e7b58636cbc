import AssetSlots.Proofs.Response.MediaType
import AssetSlots.Proofs.Site.Building

namespace AssetSlots.Site

open Response (DeclaresHtml Retouched)

variable {s : Site} {rules : RuleSet} {table : MountTable} {r r' : Response}

theorem process_of_html (s : Site) (view : View) (h : DeclaresHtml r.headers) :
    s.process view r =
      ⟨r.status, r.headers,
        r.body.map (s.pipeline.substitute (s.pipeline.discover view s.table))⟩ := by
  rw [process, if_pos (Response.isHtml_iff.mpr h), Pipeline.run]

theorem process_of_not_html (s : Site) (view : View) (h : ¬DeclaresHtml r.headers) :
    s.process view r = r := by
  rw [process, if_neg (Response.isHtml_iff.not.mpr h)]

theorem body_process (s : Site) (view : View) (r : Response) : (s.process view r).body =
    if r.isHtml = true then s.pipeline.run view s.table r.body else r.body := by
  rw [process]
  split <;> rfl

theorem body_process_of_retouched (s : Site) (view : View) (hbody : r'.body = r.body)
    (h : Relation.ReflTransGen Retouched r.headers r'.headers) :
    (s.process view r').body = (s.process view r).body := by
  rw [body_process, body_process, hbody, Response.isHtml_eq_of_retouched h]

/-- A site leaves all of a response alone but the chunks of a body that is declared to be HTML, and
to these it does the same one by one. Which responses these are does not hang on other headers, on
the case of letters or on parameters. -/
theorem process_exact (hs : build rules table = .ok s) (view : View) (r : Response) :
    ∃ p, Pipeline.ofRules rules = .ok p ∧
      (s.process view r).status = r.status ∧ (s.process view r).headers = r.headers ∧
      (s.process view r).body.length = r.body.length ∧
      (DeclaresHtml r.headers → ∀ n : Nat,
        (s.process view r).body[n]? = r.body[n]?.map (p.substitute (p.discover view table))) ∧
      (¬DeclaresHtml r.headers → (s.process view r).body = r.body) ∧
      ∀ r' : Response, r'.body = r.body → Relation.ReflTransGen Retouched r.headers r'.headers →
        (s.process view r').body = (s.process view r).body := by
  obtain ⟨p, hp, -, rfl⟩ := of_build hs
  have hretouched : ∀ r' : Response, r'.body = r.body →
      Relation.ReflTransGen Retouched r.headers r'.headers →
        (process ⟨p, table⟩ view r').body = (process ⟨p, table⟩ view r).body :=
    fun r' hbody h => body_process_of_retouched _ view hbody h
  by_cases h : DeclaresHtml r.headers
  · rw [process_of_html _ view h] at hretouched ⊢
    exact ⟨p, hp, rfl, rfl, List.length_map _, fun _ n => List.getElem?_map,
      fun hnot => absurd h hnot, hretouched⟩
  · rw [process_of_not_html _ view h] at hretouched ⊢
    exact ⟨p, hp, rfl, rfl, rfl, fun hyes => absurd hyes h, fun _ => rfl, hretouched⟩

def scripts : MountTable := MountTable.empty.add "js" (.shared "s")

def oneScript : View := fun _ => .folder (.ofEntries [⟨"a.js", true⟩])

def page : Response :=
  ⟨200, [("Accept", "text/html"), ("CONTENT-TYPE", "\tText/HTML ; charset=utf-8"),
    ("content-type", "text/plain")], ["J\r\n", "a\nJ"]⟩

def pageRetouched : Response :=
  ⟨404, [("CONTENT-TYPE", "\ttext/html ; charset=UTF-8"), ("content-type", "text/plain")],
    page.body⟩

def pageLate : Response :=
  ⟨200, [("content-type", "text/plain; text/html"), ("content-type", "text/html")], page.body⟩

theorem process_exact_page :
    ∃ s, build soundRules scripts = .ok s ∧ DeclaresHtml page.headers ∧
      Relation.ReflTransGen Retouched page.headers pageRetouched.headers ∧
      (s.process oneScript page).body[1]? = some "a\n</s/a.js>" ∧
      (s.process oneScript pageRetouched).body = (s.process oneScript page).body ∧
      (s.process oneScript pageLate).body = pageLate.body := by
  have hfiles (dir : String) : (oneScript dir).fileNames = ["a.js"] := by cbv
  obtain ⟨s, hs⟩ : ∃ s, build soundRules scripts = .ok s := ⟨_, rfl⟩
  have hhtml : DeclaresHtml page.headers := Response.isHtml_iff.mp (by decide +kernel)
  have hlate : ¬DeclaresHtml pageLate.headers := by
    rw [← Response.isHtml_iff]
    decide +kernel
  have hretouched : Relation.ReflTransGen Retouched page.headers pageRetouched.headers := by
    have hremoved : Retouched ([] ++ ("Accept", "text/html") :: page.headers.tail)
        ([] ++ page.headers.tail) := .removed (by decide)
    have hrecased : Retouched ([] ++ page.headers.tail) ([] ++ pageRetouched.headers) :=
      .recased (by decide)
    exact .tail (.single hremoved) hrecased
  obtain ⟨p, hp, -, -, -, hchunks, -, hsame⟩ := process_exact hs oneScript page
  obtain ⟨-, -, -, -, -, -, hleft, -⟩ := process_exact hs oneScript pageLate
  have hchunk : p.substitute (p.discover oneScript scripts) "a\nJ" = "a\n</s/a.js>" := by
    obtain rfl := Except.ok.inj hp
    simp only [Pipeline.discover, Injector.references, matchingFiles, hfiles]
    rfl
  exact ⟨s, hs, hhtml, hretouched, (hchunks hhtml 1).trans (congrArg some hchunk),
    hsame pageRetouched rfl hretouched, hleft hlate⟩

end AssetSlots.Site
