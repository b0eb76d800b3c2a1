import FluentMigration.Legacy.Dtd
import FluentMigration.Legacy.Po
import FluentMigration.Legacy.Properties
/-!
Reading a legacy file in its format.
-/

namespace FluentMigration
namespace Legacy

def Resource.parse (format : Format) (text : String) : Resource :=
  match format with
  | .properties => ⟨Properties.parse text.toList⟩
  | .dtd => ⟨Dtd.parse text.toList⟩
  | .po => ⟨Po.parse text.toList⟩

end Legacy
end FluentMigration
