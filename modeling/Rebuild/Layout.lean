/-
The two places every path of a build is relative to.

* `Layout` — the root of the sources and the root of what is produced, both in normal form;
* `Layout.source`, `Layout.output` — resolve a path against one of them;
* `Layout.outputCoversProject` — whether removing the output would remove the project.
-/
import Rebuild.Path

set_option autoImplicit false

namespace Rebuild

structure Layout where
  projectRoot : Path
  outputRoot : Path
deriving DecidableEq, Inhabited, Repr

namespace Layout

/-- Both roots are kept in normal form. -/
def ofRoots (projectRoot outputRoot : Path) : Layout :=
  ⟨projectRoot.normalize, outputRoot.normalize⟩

def source (l : Layout) (rel : Path) : Path :=
  (l.projectRoot.join rel).normalize

def output (l : Layout) (rel : Path) : Path :=
  (l.outputRoot.join rel).normalize

def outputCoversProject (l : Layout) : Bool :=
  l.projectRoot.startsWith l.outputRoot

end Layout

end Rebuild
