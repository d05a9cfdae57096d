import Mathlib.Data.String.Basic
import Xdpacket.Lib.Cursor
import Xdpacket.Model.Process

namespace Xdpacket

end Xdpacket
