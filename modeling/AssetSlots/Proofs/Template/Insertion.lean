import AssetSlots.Proofs.Template.Cutting
import Mathlib.Data.List.DropRight

namespace AssetSlots.Template

def inserted (t : Template) (reference : String) : String :=
  String.ofList ((reference.toList.drop t.before.length).rdrop t.after.length)

theorem inserted_render (t : Template) (url : String) : t.inserted (t.render url) = url := by
  have hbefore : (t.render url).toList.drop t.before.length = url.toList ++ t.after.toList := by
    rw [toList_render, List.append_assoc, ← String.length_toList, List.drop_left]
  rw [inserted, hbefore, List.rdrop, List.length_append, ← String.length_toList (s := t.after),
    Nat.add_sub_cancel, List.take_left, String.ofList_toList]

theorem render_injective (t : Template) : Function.Injective t.render :=
  Function.LeftInverse.injective t.inserted_render

theorem places_eq_zero_iff {t : List Char} : places t = 0 ↔ ¬['%', 's'] <:+: t := by
  rw [places, List.countP_eq_zero, List.infix_iff_prefix_suffix]
  simp only [List.mem_tails, List.isPrefixOf_iff_prefix, not_exists, not_and']

structure Plain (t : Template) : Prop where
  before : ¬['%', 's'] <:+: t.before.toList
  after : ¬['%', 's'] <:+: t.after.toList

variable {text : String} {t : Template}

theorem plain_iff : t.Plain ↔ places (t.render "%s").toList = 1 := by
  rw [places_render_place]
  constructor
  · rintro ⟨hbefore, hafter⟩
    rw [places_eq_zero_iff.mpr hbefore, places_eq_zero_iff.mpr hafter]
  · intro h
    exact ⟨places_eq_zero_iff.mp (by omega), places_eq_zero_iff.mp (by omega)⟩

theorem parse_render_place (h : t.Plain) : parse (t.render "%s") = .ok t := by
  obtain ⟨t', ht'⟩ := exists_parse_iff.mpr (plain_iff.mp h)
  -- Both are what the cut at the first place leaves.
  have hcut := cut?_of_parse ht'
  rw [toList_render_place, cut?_append_place (places_eq_zero_iff.mpr h.before), Option.some_inj,
    Prod.mk.injEq, String.toList_inj, String.toList_inj] at hcut
  cases t
  cases t'
  obtain ⟨rfl, rfl⟩ := hcut
  exact ht'

theorem parse_eq_ok_iff : parse text = .ok t ↔ t.Plain ∧ t.render "%s" = text := by
  constructor
  · intro h
    have hrender := render_place_of_parse h
    exact ⟨plain_iff.mpr (hrender ▸ exists_parse_iff.mp ⟨t, h⟩), hrender⟩
  · rintro ⟨hplain, rfl⟩
    exact parse_render_place hplain

/-- Wherever a text that was read holds `%s`, the URL comes to stand. -/
theorem render_eq_of_text {before after : String} (h : parse text = .ok t)
    (htext : text = before ++ "%s" ++ after) (url : String) :
    t.render url = before ++ url ++ after := by
  have hread : render ⟨before, after⟩ "%s" = text := htext.symm
  have hplain : Plain ⟨before, after⟩ := by
    rw [plain_iff, hread]
    exact exists_parse_iff.mp ⟨t, h⟩
  obtain rfl := Except.ok.inj (h.symm.trans (parse_eq_ok_iff.mpr ⟨hplain, hread⟩))
  rfl

theorem text_eq_of_render_eq {text' : String} {t' : Template} (h : parse text = .ok t)
    (h' : parse text' = .ok t') (hrender : ∀ url, t.render url = t'.render url) :
    text = text' :=
  calc
    text = t.render "%s" := (render_place_of_parse h).symm
    _ = t'.render "%s" := hrender "%s"
    _ = text' := render_place_of_parse h'

/-- A text is read exactly if `%s` stands at one position of it, and else the number of positions is
reported; where one was counted there is one to cut at. To put `%s` in is the inverse of reading,
and every URL comes to stand, as it is, where the one `%s` was. Different URLs give different
references, and the references tell the text. -/
theorem parse_exact (text : String) :
    ((∃ t, parse text = .ok t) ↔ places text.toList = 1) ∧
    (∀ e, parse text = .error e ↔
      places text.toList ≠ 1 ∧ e = .template text (places text.toList)) ∧
    parse text = parseInPasses text ∧
    (found text.toList = 1 → ∃ parts, cut? text.toList = some parts) ∧
    (∀ t, parse text = .ok t ↔ t.Plain ∧ t.render "%s" = text) ∧
    ∀ t, parse text = .ok t →
      (∀ before after, text = before ++ "%s" ++ after →
        ∀ url, t.render url = before ++ url ++ after) ∧
      Function.Injective t.render ∧
      ∀ text' t', parse text' = .ok t' → (∀ url, t.render url = t'.render url) → text = text' := by
  refine ⟨exists_parse_iff, fun _ => parse_eq_error_iff, parse_eq_parseInPasses text,
    fun hfound => exists_cut?_iff.mpr ?_, fun _ => parse_eq_ok_iff, fun t h => ?_⟩
  · omega
  · exact ⟨fun _ _ => render_eq_of_text h, render_injective t, fun _ _ => text_eq_of_render_eq h⟩

/-- The URL completes a `%s` at each of its ends and stands as it is. Read as a template of its own,
the reference has two places. -/
theorem parse_exact_seams :
    ∃ t, parse "%%ss" = .ok t ∧ t.render "s%" = "%s%s" ∧ t.render "%s" = "%%ss" ∧
      (∃ parts, cut? "%%ss".toList = some parts) ∧
      (∀ text, (∃ t', parse text = .ok t' ∧ ∀ url, t.render url = t'.render url) ↔
        text = "%%ss") ∧
      parse "%s%s" = .error (.template "%s%s" 2) := by
  obtain ⟨hread, -, -, hcut, hinverse, hparts⟩ := parse_exact "%%ss"
  obtain ⟨-, herror, -⟩ := parse_exact "%s%s"
  obtain ⟨t, ht⟩ := hread.mpr (by decide)
  obtain ⟨hrender, -, htext⟩ := hparts t ht
  refine ⟨t, ht, hrender "%" "s" (by decide) "s%", ((hinverse t).mp ht).2, hcut (by decide), ?_,
    (herror _).mpr ⟨by decide, by decide⟩⟩
  intro text
  constructor
  · rintro ⟨t', ht', hsame⟩
    exact (htext text t' ht' hsame).symm
  · rintro rfl
    exact ⟨t, ht, fun _ => rfl⟩

end AssetSlots.Template
