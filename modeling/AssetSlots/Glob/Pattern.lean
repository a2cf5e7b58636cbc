namespace AssetSlots.Glob

inductive Specifier where
  | single (c : Char)
  | range (lo hi : Char)
  deriving DecidableEq, Repr

namespace Specifier

def admits (c : Char) : Specifier → Bool
  | single d => c == d
  | range lo hi => decide (lo ≤ c) && decide (c ≤ hi)

end Specifier

inductive Token where
  | char (c : Char)
  /-- `?` -/
  | anyChar
  /-- `*` -/
  | anyRun
  /-- `**`, together with a `/` right after it -/
  | anyFolders
  /-- `[...]` -/
  | within (set : List Specifier)
  /-- `[!...]` -/
  | without (set : List Specifier)
  deriving DecidableEq, Repr

inductive Reason where
  | tooManyStars
  | brokenComponent
  | brokenSet
  deriving DecidableEq, Repr

namespace Reason

def message : Reason → String
  | tooManyStars => "wildcards are either regular \x60*\x60 or recursive \x60**\x60"
  | brokenComponent => "recursive wildcards must form a single path component"
  | brokenSet => "invalid range pattern"

end Reason

structure Flaw where
  position : Nat
  reason : Reason
  deriving DecidableEq, Repr

namespace Flaw

def message (f : Flaw) : String :=
  "Pattern syntax error near position " ++ toString f.position ++ ": " ++ f.reason.message

end Flaw

structure Pattern where
  tokens : List Token
  deriving DecidableEq, Repr

def specifiers : List Char → List Specifier
  | lo :: '-' :: hi :: t => .range lo hi :: specifiers t
  | c :: t => .single c :: specifiers t
  | [] => []

structure OpenSet where
  start : Nat
  negated : Bool
  members : List Char

namespace OpenSet

def token (s : OpenSet) : Token :=
  if s.negated then .without (specifiers s.members) else .within (specifiers s.members)

end OpenSet

/-- Reads tokens from position `pos` on. `boundary` holds at the start of a path component, and
`set` is the set that is being read. The first character of a set is a member even if it is `]`,
and `**` has to fill a component. -/
def readTokens (pos : Nat) (boundary : Bool) (set : Option OpenSet) :
    List Char → Except Flaw (List Token)
  | [] =>
    match set with
    | none => .ok []
    | some s => .error ⟨s.start, .brokenSet⟩
  | c :: t =>
    match set with
    | some s =>
      if c = ']' ∧ s.members ≠ [] then (s.token :: ·) <$> readTokens (pos + 1) false none t
      else readTokens (pos + 1) false (some { s with members := s.members ++ [c] }) t
    | none =>
      match c, t with
      | '[', '!' :: t => readTokens (pos + 2) false (some ⟨pos, true, []⟩) t
      | '[', t => readTokens (pos + 1) false (some ⟨pos, false, []⟩) t
      | '*', '*' :: '*' :: _ => .error ⟨pos + 2, .tooManyStars⟩
      | '*', '*' :: t =>
        if !boundary then .error ⟨pos - 1, .brokenComponent⟩
        else
          match t with
          | [] => .ok [.anyFolders]
          | '/' :: t => (.anyFolders :: ·) <$> readTokens (pos + 3) true none t
          | _ => .error ⟨pos + 2, .brokenComponent⟩
      | '*', t => (.anyRun :: ·) <$> readTokens (pos + 1) false none t
      | '?', t => (.anyChar :: ·) <$> readTokens (pos + 1) false none t
      | c, t => (.char c :: ·) <$> readTokens (pos + 1) (c == '/') none t

namespace Pattern

def parse (text : String) : Except Flaw Pattern :=
  Pattern.mk <$> readTokens 0 true none text.toList

end Pattern

end AssetSlots.Glob
