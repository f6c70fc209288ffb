import Notebook.Text.Range

/-!
# Pictographs

The Unicode property *Extended_Pictographic*: the characters that a joiner can put together
into one picture.
-/

namespace Notebook

/-- Code points with the property *Extended_Pictographic*, in increasing order. -/
def pictographRanges : CodeRanges :=
  [(0xa9, 1), (0xae, 1), (0x203c, 1), (0x2049, 1), (0x2122, 1), (0x2139, 1), (0x2194, 6),
   (0x21a9, 2), (0x231a, 2), (0x2328, 1), (0x2388, 1), (0x23cf, 1), (0x23e9, 11), (0x23f8, 3),
   (0x24c2, 1), (0x25aa, 2), (0x25b6, 1), (0x25c0, 1), (0x25fb, 4), (0x2600, 6), (0x2607, 12),
   (0x2614, 114), (0x2690, 118), (0x2708, 11), (0x2714, 1), (0x2716, 1), (0x271d, 1),
   (0x2721, 1), (0x2728, 1), (0x2733, 2), (0x2744, 1), (0x2747, 1), (0x274c, 1), (0x274e, 1),
   (0x2753, 3), (0x2757, 1), (0x2763, 5), (0x2795, 3), (0x27a1, 1), (0x27b0, 1), (0x27bf, 1),
   (0x2934, 2), (0x2b05, 3), (0x2b1b, 2), (0x2b50, 1), (0x2b55, 1), (0x3030, 1), (0x303d, 1),
   (0x3297, 1), (0x3299, 1), (0x1f000, 256), (0x1f10d, 3), (0x1f12f, 1), (0x1f16c, 6),
   (0x1f17e, 2), (0x1f18e, 1), (0x1f191, 10), (0x1f1ad, 57), (0x1f201, 15), (0x1f21a, 1),
   (0x1f22f, 1), (0x1f232, 9), (0x1f23c, 4), (0x1f249, 434), (0x1f400, 318), (0x1f546, 266),
   (0x1f680, 128), (0x1f774, 12), (0x1f7d5, 43), (0x1f80c, 4), (0x1f848, 8), (0x1f85a, 6),
   (0x1f888, 8), (0x1f8ae, 82), (0x1f90c, 47), (0x1f93c, 10), (0x1f947, 441), (0x1fc00, 1022)]

/-- A pictograph. -/
def isPictograph (c : Char) : Bool :=
  pictographRanges.contains c.toNat

end Notebook
