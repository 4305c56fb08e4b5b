import Mathlib.Algebra.Order.Ring.Int
import Mathlib.Data.Nat.Notation

/-!
# The table of the dds core

The words of `cfg/dds.mem`: a quarter of a cosine.
-/

namespace RedPitayaNotes.Dds

set_option maxRecDepth 20000 in
def ddsMem : List ℕ :=
  [0x7ffffd, 0x7ffff8, 0x7fffef, 0x7fffe0, 0x7fffcc, 0x7fffb3, 0x7fff96,
    0x7fff73, 0x7fff4c, 0x7fff1f, 0x7ffeee, 0x7ffeb8, 0x7ffe7c, 0x7ffe3c,
    0x7ffdf7, 0x7ffdad, 0x7ffd5e, 0x7ffd0a, 0x7ffcb2, 0x7ffc54, 0x7ffbf1,
    0x7ffb89, 0x7ffb1d, 0x7ffaab, 0x7ffa35, 0x7ff9ba, 0x7ff939, 0x7ff8b4,
    0x7ff82a, 0x7ff79b, 0x7ff707, 0x7ff66e, 0x7ff5d0, 0x7ff52d, 0x7ff485,
    0x7ff3d9, 0x7ff327, 0x7ff270, 0x7ff1b5, 0x7ff0f5, 0x7ff02f, 0x7fef65,
    0x7fee96, 0x7fedc1, 0x7fece8, 0x7fec0a, 0x7feb27, 0x7fea40, 0x7fe953,
    0x7fe861, 0x7fe76a, 0x7fe66f, 0x7fe56e, 0x7fe469, 0x7fe35e, 0x7fe24f,
    0x7fe13b, 0x7fe021, 0x7fdf03, 0x7fdde0, 0x7fdcb8, 0x7fdb8b, 0x7fda5a,
    0x7fd923, 0x7fd7e7, 0x7fd6a6, 0x7fd561, 0x7fd416, 0x7fd2c7, 0x7fd173,
    0x7fd019, 0x7fcebb, 0x7fcd58, 0x7fcbf0, 0x7fca83, 0x7fc911, 0x7fc79a,
    0x7fc61f, 0x7fc49e, 0x7fc318, 0x7fc18e, 0x7fbffe, 0x7fbe6a, 0x7fbcd1,
    0x7fbb32, 0x7fb98f, 0x7fb7e7, 0x7fb63a, 0x7fb488, 0x7fb2d1, 0x7fb115,
    0x7faf55, 0x7fad8f, 0x7fabc5, 0x7fa9f5, 0x7fa821, 0x7fa647, 0x7fa469,
    0x7fa286, 0x7fa09e, 0x7f9eb1, 0x7f9cbf, 0x7f9ac8, 0x7f98cc, 0x7f96cc,
    0x7f94c6, 0x7f92bc, 0x7f90ac, 0x7f8e98, 0x7f8c7f, 0x7f8a60, 0x7f883d,
    0x7f8615, 0x7f83e8, 0x7f81b7, 0x7f7f80, 0x7f7d44, 0x7f7b04, 0x7f78be,
    0x7f7674, 0x7f7424, 0x7f71d0, 0x7f6f77, 0x7f6d19, 0x7f6ab6, 0x7f684e,
    0x7f65e1, 0x7f636f, 0x7f60f9, 0x7f5e7d, 0x7f5bfd, 0x7f5977, 0x7f56ed,
    0x7f545e, 0x7f51ca, 0x7f4f31, 0x7f4c93, 0x7f49f0, 0x7f4748, 0x7f449c,
    0x7f41ea, 0x7f3f34, 0x7f3c78, 0x7f39b8, 0x7f36f3, 0x7f3429, 0x7f315a,
    0x7f2e86, 0x7f2bad, 0x7f28cf, 0x7f25ed, 0x7f2305, 0x7f2019, 0x7f1d28,
    0x7f1a31, 0x7f1736, 0x7f1436, 0x7f1131, 0x7f0e28, 0x7f0b19, 0x7f0805,
    0x7f04ed, 0x7f01d0, 0x7efead, 0x7efb86, 0x7ef85a, 0x7ef529, 0x7ef1f3,
    0x7eeeb8, 0x7eeb79, 0x7ee834, 0x7ee4eb, 0x7ee19c, 0x7ede49, 0x7edaf1,
    0x7ed794, 0x7ed432, 0x7ed0cb, 0x7ecd60, 0x7ec9ef, 0x7ec67a, 0x7ec2ff,
    0x7ebf80, 0x7ebbfc, 0x7eb873, 0x7eb4e5, 0x7eb152, 0x7eadbb, 0x7eaa1e,
    0x7ea67d, 0x7ea2d7, 0x7e9f2b, 0x7e9b7b, 0x7e97c6, 0x7e940d, 0x7e904e,
    0x7e8c8a, 0x7e88c2, 0x7e84f5, 0x7e8122, 0x7e7d4b, 0x7e796f, 0x7e758e,
    0x7e71a9, 0x7e6dbe, 0x7e69cf, 0x7e65da, 0x7e61e1, 0x7e5de3, 0x7e59e0,
    0x7e55d8, 0x7e51cb, 0x7e4dba, 0x7e49a3, 0x7e4588, 0x7e4168, 0x7e3d43,
    0x7e3919, 0x7e34ea, 0x7e30b7, 0x7e2c7e, 0x7e2841, 0x7e23fe, 0x7e1fb7,
    0x7e1b6b, 0x7e171b, 0x7e12c5, 0x7e0e6a, 0x7e0a0b, 0x7e05a7, 0x7e013d,
    0x7dfccf, 0x7df85d, 0x7df3e5, 0x7def68, 0x7deae7, 0x7de661, 0x7de1d6,
    0x7ddd46, 0x7dd8b1, 0x7dd417, 0x7dcf79, 0x7dcad5, 0x7dc62d, 0x7dc180,
    0x7dbcce, 0x7db817, 0x7db35c, 0x7dae9b, 0x7da9d6, 0x7da50c, 0x7da03d,
    0x7d9b69, 0x7d9690, 0x7d91b3, 0x7d8cd0, 0x7d87e9, 0x7d82fd, 0x7d7e0c,
    0x7d7916, 0x7d741c, 0x7d6f1c, 0x7d6a18, 0x7d650f, 0x7d6001, 0x7d5aef,
    0x7d55d7, 0x7d50bb, 0x7d4b99, 0x7d4673, 0x7d4148, 0x7d3c19, 0x7d36e4,
    0x7d31ab, 0x7d2c6d, 0x7d2729, 0x7d21e2, 0x7d1c95, 0x7d1743, 0x7d11ed,
    0x7d0c92, 0x7d0732, 0x7d01cd, 0x7cfc64, 0x7cf6f5, 0x7cf182, 0x7cec0a,
    0x7ce68d, 0x7ce10b, 0x7cdb85, 0x7cd5f9, 0x7cd069, 0x7ccad4, 0x7cc53b,
    0x7cbf9c, 0x7cb9f9, 0x7cb450, 0x7caea4, 0x7ca8f2, 0x7ca33b, 0x7c9d80,
    0x7c97bf, 0x7c91fa, 0x7c8c31, 0x7c8662, 0x7c808f, 0x7c7ab6, 0x7c74d9,
    0x7c6ef8, 0x7c6911, 0x7c6325, 0x7c5d35, 0x7c5740, 0x7c5146, 0x7c4b48,
    0x7c4544, 0x7c3f3c, 0x7c392f, 0x7c331e, 0x7c2d07, 0x7c26ec, 0x7c20cc,
    0x7c1aa7, 0x7c147d, 0x7c0e4f, 0x7c081b, 0x7c01e3, 0x7bfba6, 0x7bf565,
    0x7bef1e, 0x7be8d3, 0x7be283, 0x7bdc2f, 0x7bd5d5, 0x7bcf77, 0x7bc914,
    0x7bc2ac, 0x7bbc40, 0x7bb5ce, 0x7baf58, 0x7ba8dd, 0x7ba25e, 0x7b9bd9,
    0x7b9550, 0x7b8ec2, 0x7b882f, 0x7b8198, 0x7b7afc, 0x7b745b, 0x7b6db5,
    0x7b670a, 0x7b605b, 0x7b59a7, 0x7b52ee, 0x7b4c31, 0x7b456e, 0x7b3ea7,
    0x7b37dc, 0x7b310b, 0x7b2a36, 0x7b235c, 0x7b1c7d, 0x7b1599, 0x7b0eb1,
    0x7b07c4, 0x7b00d2, 0x7af9dc, 0x7af2e1, 0x7aebe1, 0x7ae4dc, 0x7addd2,
    0x7ad6c4, 0x7acfb1, 0x7ac89a, 0x7ac17d, 0x7aba5c, 0x7ab336, 0x7aac0c,
    0x7aa4dc, 0x7a9da8, 0x7a966f, 0x7a8f32, 0x7a87f0, 0x7a80a9, 0x7a795d,
    0x7a720d, 0x7a6ab7, 0x7a635e, 0x7a5bff, 0x7a549c, 0x7a4d34, 0x7a45c7,
    0x7a3e56, 0x7a36df, 0x7a2f65, 0x7a27e5, 0x7a2061, 0x7a18d8, 0x7a114a,
    0x7a09b8, 0x7a0221, 0x79fa85, 0x79f2e4, 0x79eb3f, 0x79e395, 0x79dbe7,
    0x79d433, 0x79cc7b, 0x79c4bf, 0x79bcfd, 0x79b537, 0x79ad6c, 0x79a59d,
    0x799dc9, 0x7995f0, 0x798e12, 0x798630, 0x797e49, 0x79765e, 0x796e6d,
    0x796678, 0x795e7f, 0x795680, 0x794e7d, 0x794676, 0x793e69, 0x793658,
    0x792e43, 0x792628, 0x791e09, 0x7915e6, 0x790dbd, 0x790590, 0x78fd5e,
    0x78f528, 0x78eced, 0x78e4ad, 0x78dc69, 0x78d420, 0x78cbd2, 0x78c380,
    0x78bb29, 0x78b2cd, 0x78aa6d, 0x78a208, 0x78999f, 0x789130, 0x7888bd,
    0x788046, 0x7877ca, 0x786f49, 0x7866c3, 0x785e39, 0x7855aa, 0x784d17,
    0x78447f, 0x783be2, 0x783341, 0x782a9b, 0x7821f1, 0x781941, 0x78108d,
    0x7807d5, 0x77ff18, 0x77f656, 0x77ed90, 0x77e4c5, 0x77dbf5, 0x77d321,
    0x77ca48, 0x77c16b, 0x77b889, 0x77afa2, 0x77a6b7, 0x779dc7, 0x7794d2,
    0x778bd9, 0x7782db, 0x7779d9, 0x7770d2, 0x7767c7, 0x775eb6, 0x7755a2,
    0x774c88, 0x77436a, 0x773a48, 0x773121, 0x7727f5, 0x771ec5, 0x771590,
    0x770c56, 0x770318, 0x76f9d5, 0x76f08e, 0x76e742, 0x76ddf2, 0x76d49d,
    0x76cb43, 0x76c1e5, 0x76b882, 0x76af1b, 0x76a5af, 0x769c3e, 0x7692c9,
    0x76894f, 0x767fd1, 0x76764e, 0x766cc7, 0x76633b, 0x7659ab, 0x765016,
    0x76467c, 0x763cde, 0x76333b, 0x762994, 0x761fe8, 0x761637, 0x760c82,
    0x7602c9, 0x75f90b, 0x75ef48, 0x75e581, 0x75dbb5, 0x75d1e5, 0x75c810,
    0x75be37, 0x75b459, 0x75aa77, 0x75a090, 0x7596a4, 0x758cb4, 0x7582c0,
    0x7578c7, 0x756ec9, 0x7564c7, 0x755ac0, 0x7550b5, 0x7546a6, 0x753c91,
    0x753279, 0x75285b, 0x751e3a, 0x751413, 0x7509e9, 0x74ffb9, 0x74f585,
    0x74eb4d, 0x74e110, 0x74d6cf, 0x74cc89, 0x74c23f, 0x74b7f0, 0x74ad9c,
    0x74a345, 0x7498e8, 0x748e87, 0x748422, 0x7479b8, 0x746f4a, 0x7464d7,
    0x745a60, 0x744fe4, 0x744564, 0x743adf, 0x743056, 0x7425c8, 0x741b36,
    0x74109f, 0x740604, 0x73fb64, 0x73f0c0, 0x73e618, 0x73db6b, 0x73d0b9,
    0x73c603, 0x73bb49, 0x73b08a, 0x73a5c7, 0x739aff, 0x739033, 0x738562,
    0x737a8d, 0x736fb3, 0x7364d5, 0x7359f3, 0x734f0c, 0x734420, 0x733930,
    0x732e3c, 0x732343, 0x731846, 0x730d44, 0x73023e, 0x72f734, 0x72ec25,
    0x72e112, 0x72d5fa, 0x72cade, 0x72bfbd, 0x72b498, 0x72a96f, 0x729e41,
    0x72930e, 0x7287d8, 0x727c9c, 0x72715d, 0x726619, 0x725ad1, 0x724f84,
    0x724433, 0x7238dd, 0x722d83, 0x722225, 0x7216c2, 0x720b5b, 0x71ffef,
    0x71f47f, 0x71e90b, 0x71dd92, 0x71d215, 0x71c693, 0x71bb0d, 0x71af83,
    0x71a3f4, 0x719861, 0x718cc9, 0x71812e, 0x71758d, 0x7169e9, 0x715e40,
    0x715292, 0x7146e1, 0x713b2b, 0x712f70, 0x7123b1, 0x7117ee, 0x710c27,
    0x71005b, 0x70f48b, 0x70e8b6, 0x70dcdd, 0x70d100, 0x70c51e, 0x70b938,
    0x70ad4e, 0x70a15f, 0x70956c, 0x708975, 0x707d79, 0x707179, 0x706574,
    0x70596c, 0x704d5f, 0x70414d, 0x703538, 0x70291d, 0x701cff, 0x7010dc,
    0x7004b5, 0x6ff88a, 0x6fec5a, 0x6fe027, 0x6fd3ee, 0x6fc7b2, 0x6fbb71,
    0x6faf2c, 0x6fa2e2, 0x6f9694, 0x6f8a42, 0x6f7dec, 0x6f7191, 0x6f6532,
    0x6f58cf, 0x6f4c67, 0x6f3ffb, 0x6f338b, 0x6f2717, 0x6f1a9e, 0x6f0e21,
    0x6f01a0, 0x6ef51a, 0x6ee890, 0x6edc02, 0x6ecf70, 0x6ec2d9, 0x6eb63e,
    0x6ea99f, 0x6e9cfb, 0x6e9053, 0x6e83a7, 0x6e76f7, 0x6e6a43, 0x6e5d8a,
    0x6e50cd, 0x6e440b, 0x6e3746, 0x6e2a7c, 0x6e1dae, 0x6e10dc, 0x6e0405,
    0x6df72a, 0x6dea4b, 0x6ddd68, 0x6dd081, 0x6dc395, 0x6db6a5, 0x6da9b1,
    0x6d9cb8, 0x6d8fbc, 0x6d82bb, 0x6d75b6, 0x6d68ad, 0x6d5b9f, 0x6d4e8d,
    0x6d4177, 0x6d345d, 0x6d273f, 0x6d1a1c, 0x6d0cf5, 0x6cffca, 0x6cf29b,
    0x6ce568, 0x6cd830, 0x6ccaf4, 0x6cbdb4, 0x6cb070, 0x6ca328, 0x6c95db,
    0x6c888b, 0x6c7b36, 0x6c6ddc, 0x6c607f, 0x6c531e, 0x6c45b8, 0x6c384e,
    0x6c2ae0, 0x6c1d6e, 0x6c0ff8, 0x6c027d, 0x6bf4ff, 0x6be77c, 0x6bd9f5,
    0x6bcc6a, 0x6bbeda, 0x6bb147, 0x6ba3af, 0x6b9614, 0x6b8874, 0x6b7ad0,
    0x6b6d27, 0x6b5f7b, 0x6b51cb, 0x6b4416, 0x6b365d, 0x6b28a0, 0x6b1adf,
    0x6b0d1a, 0x6aff51, 0x6af184, 0x6ae3b2, 0x6ad5dc, 0x6ac803, 0x6aba25,
    0x6aac43, 0x6a9e5d, 0x6a9072, 0x6a8284, 0x6a7492, 0x6a669b, 0x6a58a1,
    0x6a4aa2, 0x6a3c9f, 0x6a2e98, 0x6a208d, 0x6a127e, 0x6a046b, 0x69f653,
    0x69e838, 0x69da19, 0x69cbf5, 0x69bdce, 0x69afa2, 0x69a172, 0x69933e,
    0x698506, 0x6976ca, 0x69688a, 0x695a46, 0x694bfe, 0x693db2, 0x692f62,
    0x69210d, 0x6912b5, 0x690458, 0x68f5f8, 0x68e793, 0x68d92b, 0x68cabe,
    0x68bc4d, 0x68add9, 0x689f60, 0x6890e3, 0x688262, 0x6873de, 0x686555,
    0x6856c8, 0x684837, 0x6839a2, 0x682b09, 0x681c6c, 0x680dcb, 0x67ff26,
    0x67f07d, 0x67e1d0, 0x67d31f, 0x67c46a, 0x67b5b1, 0x67a6f4, 0x679833,
    0x67896e, 0x677aa5, 0x676bd8, 0x675d07, 0x674e32, 0x673f59, 0x67307c,
    0x67219b, 0x6712b7, 0x6703ce, 0x66f4e1, 0x66e5f0, 0x66d6fb, 0x66c803,
    0x66b906, 0x66aa05, 0x669b01, 0x668bf8, 0x667cec, 0x666ddb, 0x665ec7,
    0x664fae, 0x664092, 0x663172, 0x66224e, 0x661326, 0x6603fa, 0x65f4ca,
    0x65e596, 0x65d65e, 0x65c722, 0x65b7e2, 0x65a89f, 0x659957, 0x658a0c,
    0x657abc, 0x656b69, 0x655c12, 0x654cb7, 0x653d58, 0x652df5, 0x651e8e,
    0x650f23, 0x64ffb5, 0x64f042, 0x64e0cc, 0x64d152, 0x64c1d3, 0x64b251,
    0x64a2cb, 0x649342, 0x6483b4, 0x647422, 0x64648d, 0x6454f4, 0x644556,
    0x6435b5, 0x642611, 0x641668, 0x6406bb, 0x63f70b, 0x63e756, 0x63d79e,
    0x63c7e2, 0x63b822, 0x63a85f, 0x639897, 0x6388cc, 0x6378fc, 0x636929,
    0x635952, 0x634978, 0x633999, 0x6329b7, 0x6319d0, 0x6309e6, 0x62f9f8,
    0x62ea07, 0x62da11, 0x62ca18, 0x62ba1b, 0x62aa1a, 0x629a15, 0x628a0d,
    0x627a00, 0x6269f0, 0x6259dc, 0x6249c5, 0x6239a9, 0x62298a, 0x621967,
    0x620940, 0x61f915, 0x61e8e7, 0x61d8b5, 0x61c87f, 0x61b845, 0x61a808,
    0x6197c6, 0x618781, 0x617739, 0x6166ec, 0x61569c, 0x614648, 0x6135f0,
    0x612595, 0x611535, 0x6104d2, 0x60f46b, 0x60e401, 0x60d393, 0x60c321,
    0x60b2ab, 0x60a232, 0x6091b4, 0x608134, 0x6070af, 0x606027, 0x604f9b,
    0x603f0b, 0x602e77, 0x601de0, 0x600d45, 0x5ffca7, 0x5fec05, 0x5fdb5f,
    0x5fcab5, 0x5fba08, 0x5fa957, 0x5f98a2, 0x5f87e9, 0x5f772d, 0x5f666d,
    0x5f55aa, 0x5f44e3, 0x5f3418, 0x5f234a, 0x5f1277, 0x5f01a2, 0x5ef0c8,
    0x5edfeb, 0x5ecf0a, 0x5ebe26, 0x5ead3e, 0x5e9c52, 0x5e8b62, 0x5e7a6f,
    0x5e6979, 0x5e587e, 0x5e4780, 0x5e367f, 0x5e257a, 0x5e1471, 0x5e0364,
    0x5df254, 0x5de140, 0x5dd029, 0x5dbf0e, 0x5dadef, 0x5d9ccd, 0x5d8ba7,
    0x5d7a7e, 0x5d6951, 0x5d5820, 0x5d46ec, 0x5d35b4, 0x5d2479, 0x5d133a,
    0x5d01f7, 0x5cf0b1, 0x5cdf67, 0x5cce1a, 0x5cbcc9, 0x5cab75, 0x5c9a1d,
    0x5c88c1, 0x5c7762, 0x5c65ff, 0x5c5499, 0x5c432f, 0x5c31c1, 0x5c2050,
    0x5c0edc, 0x5bfd64, 0x5bebe8, 0x5bda69, 0x5bc8e6, 0x5bb760, 0x5ba5d6,
    0x5b9449, 0x5b82b8, 0x5b7124, 0x5b5f8c, 0x5b4df0, 0x5b3c51, 0x5b2aaf,
    0x5b1909, 0x5b075f, 0x5af5b2, 0x5ae402, 0x5ad24e, 0x5ac096, 0x5aaedb,
    0x5a9d1d, 0x5a8b5b, 0x5a7995, 0x5a67cc, 0x5a5600, 0x5a4430, 0x5a325c,
    0x5a2085, 0x5a0eab, 0x59fccd, 0x59eaec, 0x59d907, 0x59c71e, 0x59b533,
    0x59a344, 0x599151, 0x597f5b, 0x596d61, 0x595b64, 0x594964, 0x593760,
    0x592559, 0x59134e, 0x590140, 0x58ef2e, 0x58dd19, 0x58cb00, 0x58b8e5,
    0x58a6c5, 0x5894a3, 0x58827c, 0x587053, 0x585e26, 0x584bf5, 0x5839c2,
    0x58278a, 0x581550, 0x580312, 0x57f0d0, 0x57de8c, 0x57cc44, 0x57b9f8,
    0x57a7a9, 0x579557, 0x578301, 0x5770a8, 0x575e4c, 0x574bec, 0x573989,
    0x572722, 0x5714b8, 0x57024b, 0x56efda, 0x56dd66, 0x56caef, 0x56b875,
    0x56a5f7, 0x569375, 0x5680f1, 0x566e69, 0x565bdd, 0x56494f, 0x5636bd,
    0x562427, 0x56118f, 0x55fef3, 0x55ec53, 0x55d9b1, 0x55c70b, 0x55b462,
    0x55a1b5, 0x558f05, 0x557c52, 0x55699c, 0x5556e2, 0x554425, 0x553165,
    0x551ea2, 0x550bdb, 0x54f911, 0x54e643, 0x54d373, 0x54c09f, 0x54adc7,
    0x549aed, 0x54880f, 0x54752e, 0x54624a, 0x544f63, 0x543c78, 0x54298a,
    0x541699, 0x5403a4, 0x53f0ac, 0x53ddb1, 0x53cab3, 0x53b7b2, 0x53a4ad,
    0x5391a5, 0x537e9a, 0x536b8c, 0x53587a, 0x534566, 0x53324e, 0x531f33,
    0x530c14, 0x52f8f3, 0x52e5ce, 0x52d2a6, 0x52bf7b, 0x52ac4c, 0x52991b,
    0x5285e6, 0x5272ae, 0x525f73, 0x524c35, 0x5238f4, 0x5225af, 0x521267,
    0x51ff1c, 0x51ebce, 0x51d87d, 0x51c529, 0x51b1d1, 0x519e76, 0x518b18,
    0x5177b7, 0x516453, 0x5150ec, 0x513d82, 0x512a14, 0x5116a3, 0x510330,
    0x50efb9, 0x50dc3f, 0x50c8c2, 0x50b541, 0x50a1be, 0x508e37, 0x507aae,
    0x506721, 0x505391, 0x503fff, 0x502c69, 0x5018cf, 0x500533, 0x4ff194,
    0x4fddf2, 0x4fca4c, 0x4fb6a4, 0x4fa2f8, 0x4f8f4a, 0x4f7b98, 0x4f67e3,
    0x4f542b, 0x4f4070, 0x4f2cb3, 0x4f18f2, 0x4f052e, 0x4ef166, 0x4edd9c,
    0x4ec9cf, 0x4eb5ff, 0x4ea22c, 0x4e8e55, 0x4e7a7c, 0x4e66a0, 0x4e52c0,
    0x4e3ede, 0x4e2af9, 0x4e1710, 0x4e0325, 0x4def36, 0x4ddb45, 0x4dc751,
    0x4db359, 0x4d9f5f, 0x4d8b61, 0x4d7761, 0x4d635e, 0x4d4f57, 0x4d3b4e,
    0x4d2742, 0x4d1332, 0x4cff20, 0x4ceb0b, 0x4cd6f3, 0x4cc2d7, 0x4caeb9,
    0x4c9a98, 0x4c8674, 0x4c724d, 0x4c5e23, 0x4c49f6, 0x4c35c6, 0x4c2194,
    0x4c0d5e, 0x4bf925, 0x4be4ea, 0x4bd0ab, 0x4bbc6a, 0x4ba826, 0x4b93de,
    0x4b7f94, 0x4b6b47, 0x4b56f7, 0x4b42a4, 0x4b2e4f, 0x4b19f6, 0x4b059a,
    0x4af13c, 0x4adcda, 0x4ac876, 0x4ab40f, 0x4a9fa5, 0x4a8b38, 0x4a76c8,
    0x4a6256, 0x4a4de0, 0x4a3968, 0x4a24ed, 0x4a106f, 0x49fbee, 0x49e76a,
    0x49d2e3, 0x49be5a, 0x49a9ce, 0x49953e, 0x4980ac, 0x496c18, 0x495780,
    0x4942e5, 0x492e48, 0x4919a8, 0x490505, 0x48f05f, 0x48dbb7, 0x48c70b,
    0x48b25d, 0x489dac, 0x4888f8, 0x487442, 0x485f88, 0x484acc, 0x48360d,
    0x48214b, 0x480c87, 0x47f7bf, 0x47e2f5, 0x47ce29, 0x47b959, 0x47a487,
    0x478fb1, 0x477ad9, 0x4765ff, 0x475121, 0x473c41, 0x47275e, 0x471279,
    0x46fd90, 0x46e8a5, 0x46d3b7, 0x46bec7, 0x46a9d3, 0x4694dd, 0x467fe4,
    0x466ae9, 0x4655eb, 0x4640ea, 0x462be6, 0x4616e0, 0x4601d7, 0x45eccb,
    0x45d7bd, 0x45c2ac, 0x45ad98, 0x459881, 0x458368, 0x456e4c, 0x45592e,
    0x45440c, 0x452ee9, 0x4519c2, 0x450499, 0x44ef6d, 0x44da3e, 0x44c50d,
    0x44afd9, 0x449aa3, 0x44856a, 0x44702e, 0x445af0, 0x4445af, 0x44306b,
    0x441b25, 0x4405dc, 0x43f090, 0x43db42, 0x43c5f1, 0x43b09e, 0x439b48,
    0x4385ef, 0x437094, 0x435b36, 0x4345d6, 0x433073, 0x431b0d, 0x4305a5,
    0x42f03a, 0x42dacd, 0x42c55d, 0x42afea, 0x429a75, 0x4284fe, 0x426f83,
    0x425a07, 0x424487, 0x422f05, 0x421981, 0x4203fa, 0x41ee70, 0x41d8e4,
    0x41c356, 0x41adc5, 0x419831, 0x41829b, 0x416d02, 0x415767, 0x4141c9,
    0x412c29, 0x411686, 0x4100e1, 0x40eb39, 0x40d58e, 0x40bfe2, 0x40aa32,
    0x409480, 0x407ecc, 0x406915, 0x40535c, 0x403da0, 0x4027e2, 0x401221,
    0x3ffc5e, 0x3fe699, 0x3fd0d1, 0x3fbb06, 0x3fa539, 0x3f8f6a, 0x3f7998,
    0x3f63c3, 0x3f4dec, 0x3f3813, 0x3f2237, 0x3f0c59, 0x3ef679, 0x3ee096,
    0x3ecab0, 0x3eb4c9, 0x3e9ede, 0x3e88f2, 0x3e7303, 0x3e5d11, 0x3e471d,
    0x3e3127, 0x3e1b2e, 0x3e0533, 0x3def36, 0x3dd936, 0x3dc334, 0x3dad2f,
    0x3d9728, 0x3d811f, 0x3d6b13, 0x3d5505, 0x3d3ef4, 0x3d28e2, 0x3d12cc,
    0x3cfcb5, 0x3ce69b, 0x3cd07f, 0x3cba60, 0x3ca43f, 0x3c8e1c, 0x3c77f6,
    0x3c61ce, 0x3c4ba4, 0x3c3577, 0x3c1f49, 0x3c0917, 0x3bf2e4, 0x3bdcae,
    0x3bc676, 0x3bb03b, 0x3b99ff, 0x3b83bf, 0x3b6d7e, 0x3b573a, 0x3b40f5,
    0x3b2aac, 0x3b1462, 0x3afe15, 0x3ae7c6, 0x3ad175, 0x3abb21, 0x3aa4cb,
    0x3a8e73, 0x3a7819, 0x3a61bc, 0x3a4b5d, 0x3a34fc, 0x3a1e99, 0x3a0833,
    0x39f1cb, 0x39db61, 0x39c4f5, 0x39ae86, 0x399816, 0x3981a3, 0x396b2d,
    0x3954b6, 0x393e3c, 0x3927c0, 0x391142, 0x38fac2, 0x38e440, 0x38cdbb,
    0x38b734, 0x38a0ab, 0x388a20, 0x387393, 0x385d03, 0x384671, 0x382fde,
    0x381948, 0x3802af, 0x37ec15, 0x37d578, 0x37beda, 0x37a839, 0x379196,
    0x377af1, 0x37644a, 0x374da0, 0x3736f5, 0x372047, 0x370997, 0x36f2e5,
    0x36dc31, 0x36c57b, 0x36aec3, 0x369808, 0x36814c, 0x366a8d, 0x3653cd,
    0x363d0a, 0x362645, 0x360f7e, 0x35f8b5, 0x35e1ea, 0x35cb1d, 0x35b44e,
    0x359d7c, 0x3586a9, 0x356fd4, 0x3558fc, 0x354222, 0x352b47, 0x351469,
    0x34fd89, 0x34e6a8, 0x34cfc4, 0x34b8de, 0x34a1f6, 0x348b0c, 0x347420,
    0x345d32, 0x344642, 0x342f50, 0x34185c, 0x340166, 0x33ea6e, 0x33d374,
    0x33bc78, 0x33a57a, 0x338e7a, 0x337778, 0x336075, 0x33496f, 0x333267,
    0x331b5d, 0x330451, 0x32ed43, 0x32d633, 0x32bf22, 0x32a80e, 0x3290f8,
    0x3279e1, 0x3262c7, 0x324bab, 0x32348e, 0x321d6f, 0x32064d, 0x31ef2a,
    0x31d805, 0x31c0de, 0x31a9b5, 0x31928a, 0x317b5d, 0x31642e, 0x314cfe,
    0x3135cb, 0x311e97, 0x310760, 0x30f028, 0x30d8ee, 0x30c1b2, 0x30aa74,
    0x309334, 0x307bf3, 0x3064af, 0x304d6a, 0x303623, 0x301eda, 0x30078f,
    0x2ff042, 0x2fd8f3, 0x2fc1a3, 0x2faa51, 0x2f92fc, 0x2f7ba6, 0x2f644f,
    0x2f4cf5, 0x2f3599, 0x2f1e3c, 0x2f06dd, 0x2eef7c, 0x2ed819, 0x2ec0b5,
    0x2ea94f, 0x2e91e6, 0x2e7a7c, 0x2e6311, 0x2e4ba3, 0x2e3434, 0x2e1cc3,
    0x2e0550, 0x2deddb, 0x2dd665, 0x2dbeed, 0x2da773, 0x2d8ff7, 0x2d787a,
    0x2d60fb, 0x2d497a, 0x2d31f7, 0x2d1a72, 0x2d02ec, 0x2ceb64, 0x2cd3db,
    0x2cbc4f, 0x2ca4c2, 0x2c8d33, 0x2c75a3, 0x2c5e11, 0x2c467d, 0x2c2ee7,
    0x2c1750, 0x2bffb7, 0x2be81c, 0x2bd07f, 0x2bb8e1, 0x2ba141, 0x2b89a0,
    0x2b71fd, 0x2b5a58, 0x2b42b1, 0x2b2b09, 0x2b135f, 0x2afbb4, 0x2ae406,
    0x2acc58, 0x2ab4a7, 0x2a9cf5, 0x2a8541, 0x2a6d8c, 0x2a55d5, 0x2a3e1c,
    0x2a2662, 0x2a0ea6, 0x29f6e8, 0x29df29, 0x29c768, 0x29afa6, 0x2997e2,
    0x29801c, 0x296855, 0x29508c, 0x2938c2, 0x2920f6, 0x290928, 0x28f159,
    0x28d988, 0x28c1b6, 0x28a9e2, 0x28920c, 0x287a35, 0x28625d, 0x284a83,
    0x2832a7, 0x281aca, 0x2802eb, 0x27eb0b, 0x27d329, 0x27bb45, 0x27a360,
    0x278b7a, 0x277392, 0x275ba8, 0x2743bd, 0x272bd1, 0x2713e3, 0x26fbf3,
    0x26e402, 0x26cc10, 0x26b41c, 0x269c26, 0x26842f, 0x266c36, 0x26543c,
    0x263c41, 0x262444, 0x260c46, 0x25f446, 0x25dc44, 0x25c441, 0x25ac3d,
    0x259437, 0x257c30, 0x256428, 0x254c1e, 0x253412, 0x251c05, 0x2503f7,
    0x24ebe7, 0x24d3d6, 0x24bbc3, 0x24a3af, 0x248b9a, 0x247383, 0x245b6a,
    0x244351, 0x242b36, 0x241319, 0x23fafb, 0x23e2dc, 0x23cabb, 0x23b299,
    0x239a76, 0x238251, 0x236a2b, 0x235204, 0x2339db, 0x2321b1, 0x230985,
    0x22f158, 0x22d92a, 0x22c0fa, 0x22a8c9, 0x229097, 0x227863, 0x22602e,
    0x2247f8, 0x222fc1, 0x221788, 0x21ff4d, 0x21e712, 0x21ced5, 0x21b697,
    0x219e57, 0x218617, 0x216dd5, 0x215591, 0x213d4d, 0x212507, 0x210cc0,
    0x20f477, 0x20dc2d, 0x20c3e2, 0x20ab96, 0x209349, 0x207afa, 0x2062aa,
    0x204a59, 0x203206, 0x2019b2, 0x20015d, 0x1fe907, 0x1fd0b0, 0x1fb857,
    0x1f9ffd, 0x1f87a2, 0x1f6f46, 0x1f56e8, 0x1f3e89, 0x1f2629, 0x1f0dc8,
    0x1ef566, 0x1edd02, 0x1ec49e, 0x1eac38, 0x1e93d1, 0x1e7b68, 0x1e62ff,
    0x1e4a94, 0x1e3228, 0x1e19bb, 0x1e014d, 0x1de8de, 0x1dd06e, 0x1db7fc,
    0x1d9f89, 0x1d8715, 0x1d6ea0, 0x1d562a, 0x1d3db3, 0x1d253b, 0x1d0cc1,
    0x1cf446, 0x1cdbcb, 0x1cc34e, 0x1caad0, 0x1c9251, 0x1c79d0, 0x1c614f,
    0x1c48cd, 0x1c3049, 0x1c17c5, 0x1bff3f, 0x1be6b8, 0x1bce30, 0x1bb5a8,
    0x1b9d1e, 0x1b8493, 0x1b6c07, 0x1b5379, 0x1b3aeb, 0x1b225c, 0x1b09cc,
    0x1af13a, 0x1ad8a8, 0x1ac015, 0x1aa780, 0x1a8eeb, 0x1a7654, 0x1a5dbd,
    0x1a4524, 0x1a2c8b, 0x1a13f0, 0x19fb55, 0x19e2b8, 0x19ca1b, 0x19b17c,
    0x1998dd, 0x19803c, 0x19679b, 0x194ef8, 0x193655, 0x191db0, 0x19050b,
    0x18ec65, 0x18d3bd, 0x18bb15, 0x18a26c, 0x1889c2, 0x187116, 0x18586a,
    0x183fbd, 0x18270f, 0x180e61, 0x17f5b1, 0x17dd00, 0x17c44e, 0x17ab9c,
    0x1792e8, 0x177a34, 0x17617f, 0x1748c9, 0x173011, 0x17175a, 0x16fea1,
    0x16e5e7, 0x16cd2c, 0x16b471, 0x169bb4, 0x1682f7, 0x166a39, 0x16517a,
    0x1638ba, 0x161ff9, 0x160738, 0x15ee75, 0x15d5b2, 0x15bcee, 0x15a429,
    0x158b63, 0x15729d, 0x1559d5, 0x15410d, 0x152844, 0x150f7a, 0x14f6af,
    0x14dde4, 0x14c518, 0x14ac4b, 0x14937d, 0x147aae, 0x1461de, 0x14490e,
    0x14303d, 0x14176b, 0x13fe99, 0x13e5c5, 0x13ccf1, 0x13b41c, 0x139b47,
    0x138270, 0x136999, 0x1350c1, 0x1337e8, 0x131f0f, 0x130635, 0x12ed5a,
    0x12d47e, 0x12bba2, 0x12a2c5, 0x1289e7, 0x127109, 0x125829, 0x123f49,
    0x122669, 0x120d87, 0x11f4a5, 0x11dbc3, 0x11c2df, 0x11a9fb, 0x119117,
    0x117831, 0x115f4b, 0x114664, 0x112d7d, 0x111495, 0x10fbac, 0x10e2c2,
    0x10c9d8, 0x10b0ee, 0x109802, 0x107f16, 0x10662a, 0x104d3c, 0x10344e,
    0x101b60, 0x100271, 0x0fe981, 0x0fd091, 0x0fb7a0, 0x0f9eae, 0x0f85bc,
    0x0f6cc9, 0x0f53d6, 0x0f3ae2, 0x0f21ed, 0x0f08f8, 0x0ef002, 0x0ed70c,
    0x0ebe15, 0x0ea51e, 0x0e8c26, 0x0e732d, 0x0e5a34, 0x0e413a, 0x0e2840,
    0x0e0f45, 0x0df64a, 0x0ddd4e, 0x0dc452, 0x0dab55, 0x0d9257, 0x0d7959,
    0x0d605b, 0x0d475c, 0x0d2e5c, 0x0d155c, 0x0cfc5c, 0x0ce35b, 0x0cca59,
    0x0cb157, 0x0c9855, 0x0c7f52, 0x0c664e, 0x0c4d4a, 0x0c3446, 0x0c1b41,
    0x0c023b, 0x0be936, 0x0bd02f, 0x0bb729, 0x0b9e21, 0x0b851a, 0x0b6c12,
    0x0b5309, 0x0b3a00, 0x0b20f7, 0x0b07ed, 0x0aeee3, 0x0ad5d8, 0x0abccd,
    0x0aa3c1, 0x0a8ab5, 0x0a71a9, 0x0a589c, 0x0a3f8f, 0x0a2682, 0x0a0d74,
    0x09f466, 0x09db57, 0x09c248, 0x09a938, 0x099029, 0x097718, 0x095e08,
    0x0944f7, 0x092be6, 0x0912d4, 0x08f9c2, 0x08e0b0, 0x08c79d, 0x08ae8a,
    0x089577, 0x087c63, 0x08634f, 0x084a3b, 0x083126, 0x081811, 0x07fefc,
    0x07e5e6, 0x07ccd1, 0x07b3ba, 0x079aa4, 0x07818d, 0x076876, 0x074f5f,
    0x073647, 0x071d2f, 0x070417, 0x06eaff, 0x06d1e6, 0x06b8cd, 0x069fb4,
    0x06869a, 0x066d80, 0x065466, 0x063b4c, 0x062232, 0x060917, 0x05effc,
    0x05d6e1, 0x05bdc6, 0x05a4aa, 0x058b8e, 0x057272, 0x055956, 0x054039,
    0x05271d, 0x050e00, 0x04f4e3, 0x04dbc6, 0x04c2a8, 0x04a98a, 0x04906d,
    0x04774f, 0x045e31, 0x044512, 0x042bf4, 0x0412d5, 0x03f9b6, 0x03e097,
    0x03c778, 0x03ae59, 0x03953a, 0x037c1a, 0x0362fa, 0x0349db, 0x0330bb,
    0x03179b, 0x02fe7a, 0x02e55a, 0x02cc3a, 0x02b319, 0x0299f9, 0x0280d8,
    0x0267b7, 0x024e96, 0x023575, 0x021c54, 0x020333, 0x01ea12, 0x01d0f1,
    0x01b7cf, 0x019eae, 0x01858c, 0x016c6b, 0x015349, 0x013a28, 0x012106,
    0x0107e4, 0x00eec2, 0x00d5a0, 0x00bc7f, 0x00a35d, 0x008a3b, 0x007119,
    0x0057f7, 0x003ed5, 0x0025b3, 0x000c91]

/-- With a correction of at most 8192 the products and the rounding constant
stay within 47 bits. -/
def fits (x y : ℕ) : Bool :=
  0 < x && x < 2 ^ 23 && x * 2 ^ 24 + y * 8192 + 2 ^ 23 < 2 ^ 47

theorem length_ddsMem : ddsMem.length = 2048 := by
  decide +kernel

/-- The complement of an address counts from the other end. -/
theorem ddsMem_fits :
    (List.zipWith fits ddsMem ddsMem.reverse).all (fun b => b) = true := by
  decide +kernel

end RedPitayaNotes.Dds
