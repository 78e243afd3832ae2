import Sidebar.Tree.OfRaw
import Sidebar.Validation

/-!
# Sidebar.Build: from a configuration to a validated tree
-/

namespace Sidebar

/-- Why a configuration makes no validated tree. -/
inductive BuildFailure
  | config (e : ConfigError)
  | validation (failure : ValidationFailure)
deriving DecidableEq

/-- Reads a configuration and checks the tree. -/
def build (registry : Option Registry) (h : Raw.Heap) (v : Raw.Value) :
    Logged BuildFailure ValidatedTree :=
  match Tree.ofRaw h v with
  | .error e => ⟨[], .error (.config e)⟩
  | .ok t =>
    let checked := t.validate registry
    ⟨checked.log, checked.outcome.mapError .validation⟩

section

variable (registry : Option Registry) {h : Raw.Heap} {v : Raw.Value}

theorem build_of_error {e : ConfigError} (he : Tree.ofRaw h v = .error e) :
    build registry h v = ⟨[], .error (.config e)⟩ := by
  rw [build, he]

theorem build_of_ok {t : Tree} (ht : Tree.ofRaw h v = .ok t) :
    build registry h v =
      ⟨(t.validate registry).log, (t.validate registry).outcome.mapError .validation⟩ := by
  rw [build, ht]

end

end Sidebar
