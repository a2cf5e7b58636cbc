import AssetSlots.Proofs.Disk.Naming
import AssetSlots.Proofs.Folder.Hidden
import AssetSlots.Proofs.Mount.Identity
import AssetSlots.Proofs.Pipeline.Discovery
import AssetSlots.Proofs.Template.Insertion
import Mathlib

namespace AssetSlots

namespace PathText

variable {folder name : String}

def upToSlash (path : String) : String := String.ofList (path.toList.rdropWhile (· ≠ '/'))

def afterSlash (path : String) : String := String.ofList (path.toList.rtakeWhile (· ≠ '/'))

section Parts

variable (hfolder : folder.toList.getLast? = some '/') (hname : '/' ∉ name.toList)
include hfolder hname

/-- Read from its end, the path is the name and then a `/`. -/
theorem exists_reverse_append : ∃ t, (folder ++ name).toList.reverse =
    name.toList.reverse ++ '/' :: t ∧ folder.toList.reverse = '/' :: t ∧
      ∀ c ∈ name.toList.reverse, decide (c ≠ '/') = true := by
  obtain ⟨t, ht⟩ := List.getLast?_eq_some_iff.mp hfolder
  refine ⟨t.reverse, ?_, ?_, fun c hc => ?_⟩
  · rw [String.toList_append, ht]
    simp
  · rw [ht]
    simp
  · rw [decide_eq_true_iff]
    rintro rfl
    exact hname (List.mem_reverse.mp hc)

theorem upToSlash_append : upToSlash (folder ++ name) = folder := by
  obtain ⟨t, happend, hreverse, hbefore⟩ := exists_reverse_append hfolder hname
  rw [upToSlash, List.rdropWhile, happend, List.dropWhile_append_of_pos hbefore,
    List.dropWhile_cons_of_neg (by simp), ← hreverse, List.reverse_reverse, String.ofList_toList]

theorem afterSlash_append : afterSlash (folder ++ name) = name := by
  obtain ⟨t, happend, -, hbefore⟩ := exists_reverse_append hfolder hname
  rw [afterSlash, List.rtakeWhile, happend, List.takeWhile_append_of_pos hbefore,
    List.takeWhile_cons_of_neg (by simp), List.append_nil, List.reverse_reverse,
    String.ofList_toList]

end Parts

end PathText

/-- The serve prefix and the name of the file, read off a reference and the text of its template. -/
def origin? (template reference : String) : Option (String × String) :=
  match Template.parse template with
  | .ok t =>
    let url := t.inserted reference
    some (PathText.upToSlash url, PathText.afterSlash url)
  | .error _ => none

theorem origin?_render {template name : String} {t : Template} (h : Template.parse template = .ok t)
    (m : Mount) (hname : '/' ∉ name.toList) :
    origin? template (t.render (m.serve ++ name)) = some (m.serve, name) := by
  simp only [origin?, h, Template.inserted_render,
    PathText.upToSlash_append m.getLast?_serve hname,
    PathText.afterSlash_append m.getLast?_serve hname]

section Disks

variable {d : Disk} {cwd : Location} {dir name : String}

theorem Disk.Proper.notMem_of_mem_matchingFiles (hd : d.Proper) {p : Glob.Pattern}
    (h : name ∈ matchingFiles (d.view cwd) dir p) : '/' ∉ name.toList := by
  obtain ⟨⟨loc, item, -, hat⟩, -⟩ := mem_fileNames_view_iff.mp (mem_matchingFiles_iff.mp h).1
  exact hd.notMem_of_mem_names (Disk.mem_names_iff.mpr ⟨item, hat⟩)

end Disks

namespace Injector

variable {kind : String} {rule : Rule} {i : Injector}

theorem nodup_references (i : Injector) (view : View) (source serve : String) :
    (i.references view source serve).Nodup := by
  have hnames : (matchingFiles view source i.pattern).Nodup :=
    (sorted_matchingFiles view source i.pattern).imp ne_of_lt
  apply hnames.map
  intro name name' h
  exact (String.append_right_inj serve).mp (i.template.render_injective h)

/-- The references of a mount are the template with the serve prefix and a name put in, for each
file that matches, in the order of the names. No two of them are the same, and each tells the prefix
and the name that were put in. -/
theorem references_exact (hi : ofRule kind rule = .ok i) (d : Disk) (cwd : Location) (m : Mount) :
    ∃ before after p, rule.template = before ++ "%s" ++ after ∧
      Template.places rule.template.toList = 1 ∧ Glob.Pattern.parse rule.glob = .ok p ∧
      (matchingFiles (d.view cwd) m.source p).Pairwise (· < ·) ∧
      (∀ name, name ∈ matchingFiles (d.view cwd) m.source p ↔
        d.HasFile cwd m.source name ∧ p.Names name) ∧
      i.references (d.view cwd) m.source m.serve = (matchingFiles (d.view cwd) m.source p).map
        (fun name => before ++ (m.serve ++ name) ++ after) ∧
      (i.references (d.view cwd) m.source m.serve).Nodup ∧
      (∀ name, (m.serve ++ name).toList.head? = some '/') ∧
      (d.Proper → ∀ name ∈ matchingFiles (d.view cwd) m.source p,
        PathText.upToSlash (m.serve ++ name) = m.serve ∧
        PathText.afterSlash (m.serve ++ name) = name ∧ '/' ∉ name.toList ∧
        origin? rule.template (before ++ (m.serve ++ name) ++ after) = some (m.serve, name)) := by
  obtain ⟨-, htemplate, hpattern, -⟩ := ofRule_eq_ok_iff.mp hi
  refine ⟨i.template.before, i.template.after, i.pattern, Template.text_of_parse htemplate,
    Template.exists_parse_iff.mp ⟨_, htemplate⟩, compileGlob_eq_ok_iff.mp hpattern,
    sorted_matchingFiles _ _ _, fun name => ?_, rfl, nodup_references i _ _ _, fun name => ?_,
    fun hd name hname => ?_⟩
  · rw [mem_matchingFiles_iff, mem_fileNames_view_iff]
  · rw [String.toList_append, List.head?_append, m.head?_serve]
    rfl
  · have hslash := hd.notMem_of_mem_matchingFiles hname
    exact ⟨PathText.upToSlash_append m.getLast?_serve hslash,
      PathText.afterSlash_append m.getLast?_serve hslash, hslash,
      origin?_render htemplate m hslash⟩

def literalDisk : Disk :=
  ⟨[(["s"], .folder), (["s", "%s.js"], .file (.plain ⟨#[]⟩)), (["s", "b.css"], .file (.plain ⟨#[]⟩))]⟩

theorem references_exact_literal :
    literalDisk.Proper ∧
      ∃ i, ofRule "js" ⟨"<%s|>", "*.js", "J"⟩ = .ok i ∧
        i.references (literalDisk.view []) "s/" "/t//%s/" = ["</t//%s/%s.js|>"] ∧
        origin? "<%s|>" "</t//%s/%s.js|>" = some ("/t//%s/", "%s.js") := by
  have hd : literalDisk.Proper := by
    simp only [Disk.Proper]
    decide
  obtain ⟨i, hi⟩ : ∃ i, ofRule "js" ⟨"<%s|>", "*.js", "J"⟩ = .ok i := ⟨_, rfl⟩
  obtain ⟨before, after, p, -, -, hp, -, -, hreferences, -, -, hback⟩ :=
    references_exact hi literalDisk [] (.ofPaths "s" "t//%s")
  have hsource : (Mount.ofPaths "s" "t//%s").source = "s/" := by decide
  have hserve : (Mount.ofPaths "s" "t//%s").serve = "/t//%s/" := by decide
  have hview : literalDisk.view [] "s/" =
      .folder (.ofEntries [⟨"%s.js", true⟩, ⟨"b.css", true⟩]) := by rfl
  have hnames : (literalDisk.view [] "s/").fileNames = ["%s.js", "b.css"] := by
    rw [hview]
    cbv
  have hmatching : matchingFiles (literalDisk.view []) "s/" p = ["%s.js"] := by
    obtain rfl := Except.ok.inj hp
    rw [matchingFiles, hnames]
    rfl
  have hone : i.references (literalDisk.view []) "s/" "/t//%s/" = ["</t//%s/%s.js|>"] := by
    obtain rfl := Except.ok.inj hi
    rw [references, matchingFiles, hnames]
    rfl
  rw [hsource, hserve, hmatching] at hreferences hback
  have hreference : before ++ ("/t//%s/" ++ "%s.js") ++ after = "</t//%s/%s.js|>" :=
    List.singleton_inj.mp (hreferences.symm.trans hone)
  obtain ⟨-, -, -, horigin⟩ := hback hd "%s.js" List.mem_cons_self
  rw [hreference] at horigin
  exact ⟨hd, i, hi, hone, horigin⟩

end Injector

end AssetSlots
