/-!
# Settings

Two options govern how line tables are read. Each may be left unset.
-/

namespace DebugLine

structure Settings where
  /-- Whether declared argument counts are compared with the known ones. -/
  checkOpcodeLengths : Option Bool
  /-- The largest number of files in one table. -/
  maxFileEntries : Option Nat
  deriving Repr, DecidableEq

namespace Settings

/-- Nothing is set. -/
def unset : Settings := ⟨none, none⟩

/-- Argument counts are compared unless that is switched off. -/
def checksOpcodeLengths (s : Settings) : Bool := s.checkOpcodeLengths.getD true

/-- File tables have no limit unless one is set. -/
def fileLimit (s : Settings) : Option Nat := s.maxFileEntries

/-- What `upper` sets, and `s` where `upper` sets nothing. -/
def overriddenBy (s upper : Settings) : Settings where
  checkOpcodeLengths := upper.checkOpcodeLengths <|> s.checkOpcodeLengths
  maxFileEntries := upper.maxFileEntries <|> s.maxFileEntries

end Settings
end DebugLine
