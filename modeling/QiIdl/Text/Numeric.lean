import QiIdl.Text.Runs

/-!
# Numeric characters

The characters of the Unicode general categories `Nd`, `Nl` and `No`. After its first character a name may
hold them, whatever their script.
-/

namespace QiIdl.Text

/-- The code points of the categories `Nd`, `Nl` and `No`. -/
def numericRuns : Runs := [
  (48, 10), (120, 2), (5, 1), (2, 3), (1441, 10), (134, 10), (198, 10), (412, 10), (118, 10), (4, 6), (108, 10),
  (118, 10), (118, 10), (2, 6), (110, 13), (115, 10), (8, 7), (103, 10), (104, 7), (7, 19), (109, 10), (96, 10),
  (118, 10), (70, 20), (268, 10), (70, 10), (719, 20), (881, 3), (239, 10), (6, 10), (22, 10), (300, 10),
  (128, 11), (165, 10), (6, 10), (182, 10), (86, 10), (134, 10), (6, 10), (1046, 1), (3, 6), (6, 10), (198, 51),
  (2, 5), (726, 60), (78, 22), (630, 30), (1385, 1), (777, 1), (25, 9), (14, 3), (343, 4), (138, 10), (30, 8),
  (1, 15), (32, 10), (39, 15), (29536, 10), (188, 10), (320, 6), (154, 10), (38, 10), (198, 10), (22, 10),
  (86, 10), (406, 10), (21270, 10), (493, 45), (12, 57), (17, 2), (341, 27), (36, 4), (29, 1), (8, 1), (134, 5),
  (202, 10), (942, 8), (25, 7), (39, 9), (75, 5), (22, 6), (160, 2), (2, 16), (2, 46), (64, 9), (52, 2), (30, 3),
  (75, 5), (104, 8), (24, 8), (41, 7), (330, 6), (48, 10), (6, 10), (278, 31), (158, 10), (42, 4), (112, 7),
  (134, 30), (128, 10), (60, 10), (144, 10), (7, 20), (251, 10), (342, 10), (118, 10), (374, 10), (102, 10),
  (6, 20), (76, 12), (420, 19), (93, 10), (662, 10), (86, 29), (227, 10), (70, 10), (54, 10), (358, 10),
  (102, 21), (1067, 111), (15553, 10), (2342, 10), (86, 10), (134, 10), (1, 7), (526, 10), (262, 23), (349, 3),
  (23801, 10), (1478, 20), (12, 20), (108, 25), (1109, 50), (2368, 10), (422, 10), (502, 10), (247, 10), (716, 9),
  (128, 10), (791, 59), (1, 3), (1, 4), (76, 45), (1, 15), (962, 13), (2787, 10)]

/-- Whether a character is a numeral of some script. -/
def isNumeric (c : Char) : Bool := numericRuns.contains c.toNat

end QiIdl.Text
