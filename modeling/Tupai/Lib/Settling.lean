import Mathlib.Logic.Relation
import Mathlib.Order.WellFounded

namespace Tupai.Lib
open Relation
set_option autoImplicit true

end Tupai.Lib
