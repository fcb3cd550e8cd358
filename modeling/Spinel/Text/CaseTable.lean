/-!
# Case mappings of single characters

The upper and lower case of each character that has one. Most letters come in pairs of a capital and
a small letter, each of which is the case of the other, and most of these pairs in stretches. A few
characters are mapped one way alone, and a few become several characters.
-/

namespace Spinel

/-- Characters `first`, `first + stride`, and so on up to `last`, which all move by `shift`. -/
structure CaseRun where
  first : Nat
  last : Nat
  stride : Nat
  shift : Int

namespace CaseTable

/-- As many characters from `first` on, with those from `image` on as their case. -/
def moved (first image count : Nat) : CaseRun :=
  ⟨first, first + count - 1, 1, (image : Int) - first⟩

/-- The first of a stretch of capitals, the first of their small letters, and how many there are. -/
def stretches : List (Nat × Nat × Nat) :=
  [(65, 97, 26), (192, 224, 23), (216, 248, 7), (393, 598, 2), (433, 650, 2), (904, 941, 3),
    (910, 973, 2), (913, 945, 17), (931, 963, 9), (1021, 891, 3), (1024, 1104, 16),
    (1040, 1072, 32), (1329, 1377, 38), (4256, 11520, 38), (5024, 43888, 80), (5104, 5112, 6),
    (7312, 4304, 43), (7357, 4349, 3), (7944, 7936, 8), (7960, 7952, 6), (7976, 7968, 8),
    (7992, 7984, 8), (8008, 8000, 6), (8040, 8032, 8), (8120, 8112, 2), (8122, 8048, 2),
    (8136, 8050, 4), (8152, 8144, 2), (8154, 8054, 2), (8168, 8160, 2), (8170, 8058, 2),
    (8184, 8056, 2), (8186, 8060, 2), (8544, 8560, 16), (9398, 9424, 26), (11264, 11312, 48),
    (11390, 575, 2), (65313, 65345, 26), (66560, 66600, 40), (66736, 66776, 36), (66928, 66967, 11),
    (66940, 66979, 15), (66956, 66995, 7), (66964, 67003, 2), (68736, 68800, 51),
    (68944, 68976, 22), (71840, 71872, 32), (93760, 93792, 32), (93856, 93883, 25),
    (125184, 125218, 34)]

/-- Stretches in which each capital stands before its small letter, with their first and last. -/
def alternating : List (Nat × Nat) :=
  [(256, 303), (306, 311), (313, 328), (330, 375), (377, 382), (386, 389), (391, 392), (395, 396),
    (401, 402), (408, 409), (416, 421), (423, 424), (428, 429), (431, 432), (435, 438), (440, 441),
    (444, 445), (461, 476), (478, 495), (500, 501), (504, 543), (546, 563), (571, 572), (577, 578),
    (582, 591), (880, 883), (886, 887), (984, 1007), (1015, 1016), (1018, 1019), (1120, 1153),
    (1162, 1215), (1217, 1230), (1232, 1327), (7305, 7306), (7680, 7829), (7840, 7935),
    (8579, 8580), (11360, 11361), (11367, 11372), (11378, 11379), (11381, 11382), (11392, 11491),
    (11499, 11502), (11506, 11507), (42560, 42605), (42624, 42651), (42786, 42799), (42802, 42863),
    (42873, 42876), (42878, 42887), (42891, 42892), (42896, 42899), (42902, 42921), (42932, 42947),
    (42951, 42954), (42956, 42971), (42997, 42998)]

/-- The other pairs of a capital and a small letter. -/
def pairs : List (Nat × Nat) :=
  [(376, 255), (385, 595), (390, 596), (398, 477), (399, 601), (400, 603), (403, 608), (404, 611),
    (406, 617), (407, 616), (412, 623), (413, 626), (415, 629), (422, 640), (425, 643), (430, 648),
    (439, 658), (452, 454), (455, 457), (458, 460), (497, 499), (502, 405), (503, 447), (544, 414),
    (570, 11365), (573, 410), (574, 11366), (579, 384), (580, 649), (581, 652), (895, 1011),
    (902, 940), (908, 972), (975, 983), (1017, 1010), (1216, 1231), (4295, 11559), (4301, 11565),
    (8025, 8017), (8027, 8019), (8029, 8021), (8031, 8023), (8172, 8165), (8498, 8526),
    (11362, 619), (11363, 7549), (11364, 637), (11373, 593), (11374, 625), (11375, 592),
    (11376, 594), (42877, 7545), (42893, 613), (42922, 614), (42923, 604), (42924, 609),
    (42925, 620), (42926, 618), (42928, 670), (42929, 647), (42930, 669), (42931, 43859),
    (42948, 42900), (42949, 642), (42950, 7566), (42955, 612), (42972, 411)]

/-- Characters with an upper case that has another lower case. -/
def upperOnly : List (Nat × Nat × Nat) :=
  [(181, 924, 1), (305, 73, 1), (383, 83, 1), (453, 452, 1), (456, 455, 1), (459, 458, 1),
    (498, 497, 1), (837, 921, 1), (962, 931, 1), (976, 914, 1), (977, 920, 1), (981, 934, 1),
    (982, 928, 1), (1008, 922, 1), (1009, 929, 1), (1013, 917, 1), (7296, 1042, 1), (7297, 1044, 1),
    (7298, 1054, 1), (7299, 1057, 2), (7301, 1058, 1), (7302, 1066, 1), (7303, 1122, 1),
    (7304, 42570, 1), (7835, 7776, 1), (8126, 921, 1)]

/-- Characters with a lower case that has another upper case. -/
def lowerOnly : List (Nat × Nat × Nat) :=
  [(453, 454, 1), (456, 457, 1), (459, 460, 1), (498, 499, 1), (1012, 952, 1), (7838, 223, 1),
    (8072, 8064, 8), (8088, 8080, 8), (8104, 8096, 8), (8124, 8115, 1), (8140, 8131, 1),
    (8188, 8179, 1), (8486, 969, 1), (8490, 107, 1), (8491, 229, 1)]

/-- Runs of characters with an upper case of one character. -/
def upperRuns : List CaseRun :=
  stretches.map (fun (capital, small, count) => moved small capital count) ++
    alternating.map (fun (first, last) => ⟨first + 1, last, 2, -1⟩) ++
    pairs.map (fun (capital, small) => moved small capital 1) ++
    upperOnly.map fun (first, image, count) => moved first image count

/-- Runs of characters with a lower case of one character. -/
def lowerRuns : List CaseRun :=
  stretches.map (fun (capital, small, count) => moved capital small count) ++
    alternating.map (fun (first, last) => ⟨first, last - 1, 2, 1⟩) ++
    pairs.map (fun (capital, small) => moved capital small 1) ++
    lowerOnly.map fun (first, image, count) => moved first image count

/-- Eight characters each, with an upper case that is followed by a capital iota. -/
def iotas : List (Nat × Nat) :=
  [(8064, 7944), (8072, 7944), (8080, 7976), (8088, 7976), (8096, 8040), (8104, 8040)]

/-- Characters whose upper case is several characters. -/
def upperLong : List (Nat × List Nat) :=
  iotas.flatMap (fun (first, image) => (List.range 8).map fun i => (first + i, [image + i, 921])) ++
  [(223, [83, 83]), (329, [700, 78]), (496, [74, 780]), (912, [921, 776, 769]),
    (944, [933, 776, 769]), (1415, [1333, 1362]), (7830, [72, 817]), (7831, [84, 776]),
    (7832, [87, 778]), (7833, [89, 778]), (7834, [65, 702]), (8016, [933, 787]),
    (8018, [933, 787, 768]), (8020, [933, 787, 769]), (8022, [933, 787, 834]), (8114, [8122, 921]),
    (8115, [913, 921]), (8116, [902, 921]), (8118, [913, 834]), (8119, [913, 834, 921]),
    (8124, [913, 921]), (8130, [8138, 921]), (8131, [919, 921]), (8132, [905, 921]),
    (8134, [919, 834]), (8135, [919, 834, 921]), (8140, [919, 921]), (8146, [921, 776, 768]),
    (8147, [921, 776, 769]), (8150, [921, 834]), (8151, [921, 776, 834]), (8162, [933, 776, 768]),
    (8163, [933, 776, 769]), (8164, [929, 787]), (8166, [933, 834]), (8167, [933, 776, 834]),
    (8178, [8186, 921]), (8179, [937, 921]), (8180, [911, 921]), (8182, [937, 834]),
    (8183, [937, 834, 921]), (8188, [937, 921]), (64256, [70, 70]), (64257, [70, 73]),
    (64258, [70, 76]), (64259, [70, 70, 73]), (64260, [70, 70, 76]), (64261, [83, 84]),
    (64262, [83, 84]), (64275, [1348, 1350]), (64276, [1348, 1333]), (64277, [1348, 1339]),
    (64278, [1358, 1350]), (64279, [1348, 1341])]

/-- Characters whose lower case is several characters. -/
def lowerLong : List (Nat × List Nat) :=
  [(304, [105, 775])]

end CaseTable

end Spinel
