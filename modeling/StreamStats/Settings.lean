import StreamStats.Codegen
import StreamStats.Plan

/-! Everything that compilation can be told. -/

namespace StreamStats

structure Settings where
  codegen : Codegen.Options := {}
  optimizer : OptimizerSettings := {}
  /-- Code for no machine in particular when there is none. -/
  target : Option Target := none
  deriving DecidableEq

namespace Settings

def small : Settings := { optimizer := .small }

def debugging : Settings := { optimizer := .debugging }

end Settings
end StreamStats
