import AssetSlots.Disk

namespace AssetSlots

def Place.target? : Place → Option Location
  | file loc _ => some loc
  | folder _ => none
  | vacant loc => some loc

namespace Disk

structure Named (purpose : Purpose) (name : String) (rest : List String) : Prop where
  ne_idle : ¬(name = "" ∨ name = ".")
  ne_up : name ≠ ".."
  allowed : ¬(purpose = .create ∧ rest ≠ [] ∧ rest.all String.isEmpty)
  short : ¬nameLimit < name.utf8ByteSize

/-- A walk from a folder to a place, over at most `n` links. -/
inductive Walks (d : Disk) (purpose : Purpose) : Nat → Location → List String → Place → Prop
  | here {n : Nat} {loc : Location} : Walks d purpose n loc [] (.folder loc)
  | stay {n : Nat} {loc : Location} {name : String} {rest : List String} {place : Place}
      (hname : name = "" ∨ name = ".") (next : Walks d purpose n loc rest place) :
      Walks d purpose n loc (name :: rest) place
  | up {n : Nat} {loc : Location} {rest : List String} {place : Place}
      (next : Walks d purpose n loc.dropLast rest place) : Walks d purpose n loc (".." :: rest) place
  | down {n : Nat} {loc : Location} {name : String} {rest : List String} {place : Place}
      (hname : Named purpose name rest) (hat : d.at? (loc ++ [name]) = some .folder)
      (next : Walks d purpose n (loc ++ [name]) rest place) :
      Walks d purpose n loc (name :: rest) place
  | file {n : Nat} {loc : Location} {name : String} {f : File}
      (hname : Named purpose name []) (hat : d.at? (loc ++ [name]) = some (.file f)) :
      Walks d purpose n loc [name] (.file (loc ++ [name]) f)
  | link {n : Nat} {loc : Location} {name target : String} {rest : List String} {place : Place}
      (hname : Named purpose name rest) (hat : d.at? (loc ++ [name]) = some (.link target))
      (next : Walks d purpose n (if target.toList.head? = some '/' then [] else loc)
        (pieces target ++ rest) place) :
      Walks d purpose (n + 1) loc (name :: rest) place
  | vacant {n : Nat} {loc : Location} {name : String} {rest : List String}
      (hname : Named purpose name rest) (hat : d.at? (loc ++ [name]) = none)
      (hrest : rest.all String.isEmpty) :
      Walks d purpose n loc (name :: rest) (.vacant (loc ++ [name]))

variable {d : Disk} {purpose : Purpose} {n : Nat} {loc : Location} {place : Place}

def follower (d : Disk) (purpose : Purpose) : Nat → Location → List String → Except Fault Place
  | 0 => fun _ _ => .error .linkLoop
  | n + 1 => walk d purpose n

theorem walk_eq (d : Disk) (purpose : Purpose) (n : Nat) :
    walk d purpose n = walkFrom d purpose (follower d purpose n) := by
  cases n <;> rfl

section Steps

variable {follow : Location → List String → Except Fault Place} {name : String}
  {rest : List String}

theorem walkFrom_idle (hname : name = "" ∨ name = ".") :
    walkFrom d purpose follow loc (name :: rest) = walkFrom d purpose follow loc rest := by
  rw [walkFrom, if_pos hname]

theorem walkFrom_up :
    walkFrom d purpose follow loc (".." :: rest) = walkFrom d purpose follow loc.dropLast rest := by
  rw [walkFrom, if_neg (by decide), if_pos rfl]

theorem walkFrom_named (hname : Named purpose name rest) :
    walkFrom d purpose follow loc (name :: rest) =
      match d.at? (loc ++ [name]) with
      | some .folder => walkFrom d purpose follow (loc ++ [name]) rest
      | some (.file f) =>
        if rest = [] then .ok (.file (loc ++ [name]) f) else .error .notDirectory
      | some (.link target) =>
        follow (if target.toList.head? = some '/' then [] else loc) (pieces target ++ rest)
      | none => if rest.all String.isEmpty then .ok (.vacant (loc ++ [name]))
        else .error .notFound := by
  rw [walkFrom, if_neg hname.ne_idle, if_neg hname.ne_up, if_neg hname.allowed]
  exact if_neg hname.short

theorem named_of_walkFrom (hidle : ¬(name = "" ∨ name = ".")) (hup : name ≠ "..")
    (h : walkFrom d purpose follow loc (name :: rest) = .ok place) : Named purpose name rest := by
  rw [walkFrom, if_neg hidle, if_neg hup] at h
  split at h
  · cases h
  · next hallowed =>
    split at h
    · cases h
    · next hshort => exact ⟨hidle, hup, hallowed, hshort⟩

end Steps

theorem Walks.walk_eq_ok {ps : List String} (h : Walks d purpose n loc ps place) :
    walk d purpose n loc ps = .ok place := by
  induction h with
  | here => rw [walk_eq, walkFrom]
  | stay hname _ ih => rwa [walk_eq, walkFrom_idle hname, ← walk_eq]
  | up _ ih => rwa [walk_eq, walkFrom_up, ← walk_eq]
  | down hname hat _ ih =>
      rw [walk_eq, walkFrom_named hname, hat, ← walk_eq]
      exact ih
  | file hname hat =>
      rw [walk_eq, walkFrom_named hname, hat]
      rfl
  | link hname hat _ ih =>
      rw [walk_eq, walkFrom_named hname, hat]
      exact ih
  | vacant hname hat hrest =>
      rw [walk_eq, walkFrom_named hname, hat]
      exact if_pos hrest

/-- The rules up to the next link, which `hlink` takes over. -/
theorem walks_of_walkFrom {ps : List String}
    (hlink : ∀ loc name target rest, Named purpose name rest →
      d.at? (loc ++ [name]) = some (.link target) →
      follower d purpose n (if target.toList.head? = some '/' then [] else loc)
        (pieces target ++ rest) = .ok place →
      Walks d purpose n loc (name :: rest) place)
    (h : walkFrom d purpose (follower d purpose n) loc ps = .ok place) :
    Walks d purpose n loc ps place := by
  induction ps generalizing loc with
  | nil =>
      obtain rfl := Except.ok.inj h
      exact .here
  | cons name rest ih =>
      by_cases hidle : name = "" ∨ name = "."
      · rw [walkFrom_idle hidle] at h
        exact .stay hidle (ih h)
      · by_cases hup : name = ".."
        · subst hup
          rw [walkFrom_up] at h
          exact .up (ih h)
        · have hname := named_of_walkFrom hidle hup h
          rw [walkFrom_named hname] at h
          rcases hat : d.at? (loc ++ [name]) with _ | f | _ | target <;> rw [hat] at h
          case none =>
              obtain ⟨hrest, hplace⟩ : rest.all String.isEmpty ∧
                  place = .vacant (loc ++ [name]) := by grind
              exact hplace ▸ .vacant hname hat hrest
          case some.file =>
              obtain ⟨rfl, rfl⟩ : rest = [] ∧ place = .file (loc ++ [name]) f := by grind
              exact .file hname hat
          case some.folder => exact .down hname hat (ih h)
          case some.link => exact hlink loc name target rest hname hat h

theorem walks_of_walk {ps : List String} (h : walk d purpose n loc ps = .ok place) :
    Walks d purpose n loc ps place := by
  -- On the links that are left to follow; from one to the next the pieces get fewer.
  induction n generalizing loc ps with
  | zero => exact walks_of_walkFrom (fun _ _ _ _ _ _ hnone => nomatch hnone) (walk_eq .. ▸ h)
  | succ n ih =>
      exact walks_of_walkFrom (fun _ _ _ _ hname hat hnext => .link hname hat (ih hnext))
        (walk_eq .. ▸ h)

theorem walk_eq_ok_iff {ps : List String} :
    walk d purpose n loc ps = .ok place ↔ Walks d purpose n loc ps place :=
  ⟨walks_of_walk, Walks.walk_eq_ok⟩

namespace Walks

variable {ps : List String}

/-- What is at the end of a way is what the rules have found there. -/
theorem at?_target (h : Walks d purpose n loc ps place) {l : Location}
    (hl : place.target? = some l) :
    l ≠ [] ∧ (∀ f, place = .file l f → d.at? l = some (.file f)) ∧
      (place = .vacant l → d.at? l = none) := by
  induction h with
  | here => cases hl
  | stay _ _ ih | up _ ih | down _ _ _ ih | link _ _ _ ih => exact ih hl
  | file _ hat =>
      obtain rfl := Option.some.inj hl
      exact ⟨by simp, by rintro _ ⟨⟩; exact hat, by rintro ⟨⟩⟩
  | vacant _ hat _ =>
      obtain rfl := Option.some.inj hl
      exact ⟨by simp, by rintro _ ⟨⟩, fun _ => hat⟩

/-- A way along which a file can be made can be looked along. -/
theorem look (h : Walks d purpose n loc ps place) : Walks d .look n loc ps place := by
  have hlook {name : String} {rest : List String} (hname : Named purpose name rest) :
      Named .look name rest := ⟨hname.ne_idle, hname.ne_up, by simp, hname.short⟩
  induction h with
  | here => exact .here
  | stay hname _ ih => exact .stay hname ih
  | up _ ih => exact .up ih
  | down hname hat _ ih => exact .down (hlook hname) hat ih
  | file hname hat => exact .file (hlook hname) hat
  | link hname hat _ ih => exact .link (hlook hname) hat ih
  | vacant hname hat hrest => exact .vacant (hlook hname) hat hrest

theorem file_of_at? (h : Walks d purpose n loc ps place) {l : Location}
    (hl : place.target? = some l) {item : Item} (hitem : d.at? l = some item) :
    ∃ f, item = .file f := by
  obtain ⟨_, hfile, hvacant⟩ := h.at?_target hl
  cases place with
  | folder _ => cases hl
  | file _ f =>
      obtain rfl := Option.some.inj hl
      exact ⟨f, Option.some.inj (hitem.symm.trans (hfile f rfl))⟩
  | vacant _ =>
      obtain rfl := Option.some.inj hl
      cases hitem.symm.trans (hvacant rfl)

/-- Putting a file at the end of a way leaves the way as it is, up to the file. -/
theorem put (h : Walks d .create n loc ps place) {l : Location} (hl : place.target? = some l)
    (f : File) : Walks (d.put l (.file f)) .create n loc ps (.file l f) := by
  have hat (m : Location) := at?_put d (h.at?_target hl).1 (.file f) m
  -- What the way passes through is no file, so it does not stand at `l`.
  have hkeep {m : Location} {item : Item} (hm : d.at? m = some item)
      (hitem : ∀ f, item ≠ .file f) : (d.put l (.file f)).at? m = some item := by
    rw [hat, if_neg, hm]
    rintro rfl
    obtain ⟨f, hfile⟩ := h.file_of_at? hl hm
    exact hitem f hfile
  have hnew : (d.put l (.file f)).at? l = some (.file f) := by rw [hat, if_pos rfl]
  clear hat
  induction h with
  | here => cases hl
  | stay hname _ ih => exact .stay hname (ih hl)
  | up _ ih => exact .up (ih hl)
  | down hname hm _ ih => exact .down hname (hkeep hm nofun) (ih hl)
  | link hname hm _ ih => exact .link hname (hkeep hm nofun) (ih hl)
  | file hname _ =>
      obtain rfl := Option.some.inj hl
      exact .file hname hnew
  | @vacant _ _ _ rest hname _ hrest =>
      obtain rfl := Option.some.inj hl
      -- A slash behind a free name is refused when a file is to be made there.
      have hlast : rest = [] := by
        by_cases hne : rest = []
        · exact hne
        · exact absurd ⟨rfl, hne, hrest⟩ hname.allowed
      subst hlast
      exact .file hname hnew

/-- The way of a path ends at a file. -/
theorem append_of_file (h : Walks d .look n loc ps place) {l : Location} {f : File}
    (hplace : place = .file l f) {more : List String} (hmore : more ≠ []) :
    walk d .look n loc (ps ++ more) = .error .notDirectory := by
  have hnamed {name : String} {rest : List String} (hname : Named .look name rest) :
      Named .look name (rest ++ more) := ⟨hname.ne_idle, hname.ne_up, by simp, hname.short⟩
  induction h with
  | here => cases hplace
  | stay hname _ ih => rw [walk_eq, List.cons_append, walkFrom_idle hname, ← walk_eq, ih hplace]
  | up _ ih => rw [walk_eq, List.cons_append, walkFrom_up, ← walk_eq, ih hplace]
  | down hname hat _ ih =>
      rw [walk_eq, List.cons_append, walkFrom_named (hnamed hname), hat, ← walk_eq]
      exact ih hplace
  | file hname hat =>
      rw [walk_eq, List.cons_append, walkFrom_named (hnamed hname), hat]
      exact if_neg hmore
  | link hname hat _ ih =>
      have hnext := ih hplace
      rw [List.append_assoc] at hnext
      rw [walk_eq, List.cons_append, walkFrom_named (hnamed hname), hat]
      exact hnext
  | vacant => cases hplace

end Walks

variable {cwd : Location} {path : String}

def origin (cwd : Location) (path : String) : Location :=
  if path.toList.head? = some '/' then [] else cwd

structure Usable (path : String) : Prop where
  no_nul : ¬path.toList.contains '\x00'
  ne_empty : path ≠ ""
  short : ¬pathLimit ≤ path.utf8ByteSize

theorem resolve_eq_ok_iff : d.resolve purpose cwd path = .ok place ↔
    Usable path ∧ Walks d purpose linkLimit (origin cwd path) (pieces path) place := by
  rw [← walk_eq_ok_iff, resolve, origin]
  constructor
  · intro h
    split at h
    · cases h
    · split at h
      · cases h
      · split at h
        · cases h
        · next hnul hempty hshort => exact ⟨⟨hnul, hempty, hshort⟩, h⟩
  · rintro ⟨⟨hnul, hempty, hshort⟩, h⟩
    rw [if_neg hnul, if_neg hempty, if_neg hshort]
    exact h

theorem at?_of_resolve (h : d.resolve purpose cwd path = .ok place) {l : Location}
    (hl : place.target? = some l) :
    l ≠ [] ∧ (∀ f, place = .file l f → d.at? l = some (.file f)) ∧
      (place = .vacant l → d.at? l = none) :=
  (resolve_eq_ok_iff.mp h).2.at?_target hl

theorem resolve_look (h : d.resolve .create cwd path = .ok place) :
    d.resolve .look cwd path = .ok place := by
  obtain ⟨husable, hwalk⟩ := resolve_eq_ok_iff.mp h
  exact resolve_eq_ok_iff.mpr ⟨husable, hwalk.look⟩

/-- Where a file has been written, the same path leads to it. -/
theorem resolve_put (h : d.resolve .create cwd path = .ok place) {l : Location}
    (hl : place.target? = some l) (f : File) :
    (d.put l (.file f)).resolve .look cwd path = .ok (.file l f) := by
  obtain ⟨husable, hwalk⟩ := resolve_eq_ok_iff.mp h
  exact resolve_eq_ok_iff.mpr ⟨husable, (hwalk.put hl f).look⟩

end Disk

end AssetSlots
