import Sj3.Model.Fuzoku

/-! # The table of particles

`fzkyomi.c`: for each first code of a particle the particles that start with it. The right
connections of the words (`connect.c`) and where a clause may end (`termtbl.c`). -/

namespace Sj3

def fzkWo : Bytes := [
  0x00, 0x01, 0x02, 0x00, 0x77, 0x83, 0xff]

def fzkXtu : Bytes := [
  0x01, 0x5e, 0x7a, 0x9a, 0x03, 0x6c, 0x70, 0x73, 0x02, 0x9b, 0x21, 0x96, 0x03, 0x9c, 0x42, 0x64,
  0x51, 0xd4, 0x53, 0x62, 0x58, 0x70, 0xd4, 0x2b, 0x82, 0x9a, 0x53, 0xd4, 0x94, 0x61, 0x5c, 0xd4,
  0x27, 0x62, 0x5e, 0x99, 0xd4, 0x67, 0x61, 0x62, 0xd4, 0x79, 0x01, 0x73, 0x04, 0x9d, 0x20, 0x05,
  0x9e, 0x03, 0x7e, 0x77, 0x64, 0x06, 0x9f, 0x02, 0x8a, 0x51, 0x07, 0xa0, 0x22, 0x58, 0x70, 0x07,
  0x2b, 0x42, 0x9a, 0x53, 0x07, 0x94, 0x21, 0x5c, 0x07, 0x27, 0x22, 0x5e, 0x99, 0x07, 0x67, 0xff]

def fzkA : Bytes := [
  0x01, 0x5f, 0xa9, 0x91, 0x21, 0x95, 0xa9, 0x6e, 0x21, 0x98, 0xa9, 0x52, 0x21, 0x99, 0xa9, 0x69,
  0x21, 0x9a, 0xa9, 0x6d, 0x01, 0x70, 0xaa, 0x2f, 0x01, 0x96, 0xab, 0x8c, 0x01, 0x97, 0xac, 0x32,
  0x20, 0xad, 0x33, 0x20, 0xae, 0x34, 0x01, 0x98, 0xaa, 0x52, 0x01, 0x99, 0xaf, 0x6a, 0x20, 0xb0,
  0x68, 0x23, 0x7d, 0x60, 0x6a, 0xaf, 0x89, 0x02, 0x9a, 0x53, 0xb1, 0x93, 0xff]

def fzkI : Bytes := [
  0x00, 0xb5, 0x10, 0x01, 0x51, 0xb2, 0x52, 0x01, 0x58, 0xa9, 0x92, 0x01, 0x5a, 0xa9, 0x35, 0x01,
  0x5c, 0xa9, 0x52, 0x01, 0x5e, 0xa9, 0x6b, 0x02, 0x60, 0x53, 0xa9, 0x93, 0x02, 0x6c, 0x64, 0xb3,
  0x36, 0x22, 0x6d, 0x51, 0xb4, 0x2c, 0x41, 0x58, 0xb4, 0x8e, 0x41, 0x5a, 0xb4, 0x37, 0x41, 0x5c,
  0xb4, 0x52, 0x41, 0x5e, 0xb4, 0x19, 0x42, 0x60, 0x53, 0xb4, 0x93, 0x01, 0x70, 0xa9, 0x31, 0x01,
  0x95, 0xb5, 0x6e, 0x01, 0x98, 0xb5, 0x52, 0x01, 0x99, 0xb5, 0x68, 0x01, 0x9a, 0xb5, 0x6d, 0xff]

def fzkU : Bytes := [
  0x01, 0x55, 0x08, 0xa1, 0x01, 0x6e, 0x09, 0xa2, 0x01, 0x98, 0xb6, 0x52, 0xff]

def fzkE : Bytes := [
  0x00, 0xb6, 0x11, 0x01, 0x98, 0xb6, 0x52, 0x01, 0x99, 0xb6, 0x69, 0xff]

def fzkO : Bytes := [
  0x01, 0x51, 0xa9, 0x31, 0x21, 0x73, 0x0a, 0xa3, 0x01, 0x58, 0xa9, 0x92, 0x01, 0x5a, 0xa9, 0x35,
  0x01, 0x5c, 0xa9, 0x52, 0x01, 0x5e, 0xa9, 0x6b, 0x21, 0x98, 0x0b, 0xa4, 0x02, 0x60, 0x53, 0xa9,
  0x93, 0x01, 0x96, 0xa9, 0x8c, 0x01, 0x97, 0x0c, 0xa5, 0x20, 0xa9, 0x38, 0x01, 0x99, 0xa9, 0x6a,
  0xff]

def fzkKa : Bytes := [
  0x08, 0x0d, 0xa6, 0x08, 0x0e, 0xa7, 0x01, 0x51, 0x0f, 0x9a, 0x01, 0x5e, 0xb7, 0x12, 0x21, 0x98,
  0xb7, 0x52, 0x21, 0x99, 0xb7, 0x69, 0x02, 0x64, 0x96, 0x10, 0x9a, 0x41, 0x7a, 0x10, 0x9a, 0x03,
  0x6c, 0x59, 0x6c, 0x11, 0xa8, 0x03, 0x76, 0x53, 0x58, 0x12, 0xa9, 0x01, 0x77, 0x13, 0x9a, 0x01,
  0x7a, 0x14, 0x9a, 0x20, 0xb8, 0x13, 0x21, 0x98, 0xb8, 0x52, 0x21, 0x99, 0xb8, 0x69, 0x03, 0x8b,
  0x6c, 0x7c, 0x0d, 0x89, 0x01, 0x8f, 0x15, 0xaa, 0x01, 0x96, 0x16, 0x03, 0x20, 0x17, 0xab, 0x21,
  0x67, 0xb9, 0x4e, 0x21, 0x79, 0xb9, 0x5a, 0xff]

def fzkGa : Bytes := [
  0x00, 0x18, 0x04, 0x00, 0x19, 0xac, 0x02, 0x6c, 0x51, 0xba, 0x53, 0x22, 0x58, 0x70, 0xba, 0x2b,
  0x42, 0x9a, 0x53, 0xba, 0x94, 0x21, 0x5c, 0xba, 0x39, 0x22, 0x5e, 0x99, 0xba, 0x68, 0x01, 0x6e,
  0xbb, 0x72, 0x21, 0x6d, 0xbb, 0x4a, 0x41, 0x70, 0xbb, 0x2b, 0x42, 0x9a, 0x53, 0xbb, 0x95, 0x21,
  0x74, 0xbb, 0x28, 0x21, 0x77, 0xbb, 0x5e, 0x41, 0x96, 0xbb, 0x67, 0x21, 0x78, 0xbb, 0x29, 0x02,
  0x73, 0x96, 0x1a, 0xad, 0xff]

def fzkKi : Bytes := [
  0x00, 0xa9, 0x80, 0x01, 0x97, 0x1b, 0xae, 0xff]

def fzkKu : Bytes := [
  0x02, 0x68, 0x78, 0x1c, 0xaf, 0x03, 0x6d, 0x62, 0x51, 0xbc, 0x3b, 0x41, 0x70, 0xbc, 0x30, 0x41,
  0x96, 0xbc, 0x8e, 0x41, 0x97, 0xbc, 0x37, 0x41, 0x98, 0xbc, 0x52, 0x41, 0x99, 0xbc, 0x69, 0x02,
  0x96, 0x51, 0x1d, 0xb0, 0x01, 0x98, 0xa9, 0x52, 0x01, 0x99, 0xa9, 0x6c, 0x21, 0x98, 0xa9, 0x52,
  0x21, 0x99, 0xa9, 0x69, 0xff]

def fzkGu : Bytes := [
  0x02, 0x96, 0x51, 0x1d, 0xb0, 0x02, 0x98, 0x8c, 0x1e, 0xb1, 0xff]

def fzkKe : Bytes := [
  0x01, 0x76, 0x1f, 0xb2, 0x21, 0x8f, 0x1f, 0xb2, 0x02, 0x99, 0x76, 0x1f, 0xb2, 0x41, 0x8f, 0x1f,
  0xb2, 0xff]

def fzkKo : Bytes := [
  0x00, 0xa9, 0x97, 0x01, 0x51, 0xa9, 0x6d, 0x01, 0x6a, 0x20, 0xb3, 0x01, 0x75, 0x21, 0xb4, 0xff]

def fzkGo : Bytes := [
  0x02, 0x63, 0x51, 0xbd, 0x3c, 0x02, 0x75, 0x5a, 0x81, 0x62, 0x21, 0x5c, 0x81, 0x3d, 0x21, 0x64,
  0x81, 0x4c, 0xff]

def fzkSa : Bytes := [
  0x00, 0xbe, 0x43, 0x00, 0x22, 0x9a, 0x01, 0x55, 0x23, 0x0d, 0x01, 0x68, 0x82, 0x17, 0x21, 0x95,
  0x82, 0x6e, 0x21, 0x98, 0x82, 0x52, 0x21, 0x99, 0x82, 0x68, 0x21, 0x9a, 0x82, 0x6d, 0xff]

def fzkZa : Bytes := [
  0x01, 0x98, 0x83, 0x54, 0x01, 0x99, 0x83, 0x68, 0xff]

def fzkSi : Bytes := [
  0x00, 0xbf, 0x8f, 0x00, 0x24, 0xb5, 0x00, 0x7b, 0x86, 0x01, 0x58, 0x25, 0x0e, 0x01, 0x73, 0xa8,
  0x85, 0x02, 0x8b, 0x51, 0xa9, 0x35, 0x21, 0x53, 0xa9, 0x52, 0x21, 0x55, 0xa9, 0x6b, 0x22, 0x57,
  0x53, 0xa9, 0x93, 0x21, 0x70, 0xa9, 0x30, 0x21, 0x9c, 0xa9, 0x92, 0x01, 0x9a, 0xc0, 0x6d, 0xff]

def fzkJi : Bytes := [
  0x02, 0x8b, 0x51, 0xc2, 0x35, 0x21, 0x53, 0xc2, 0x52, 0x21, 0x55, 0xc2, 0x6b, 0x22, 0x57, 0x53,
  0xc2, 0x93, 0x21, 0x70, 0xc2, 0x30, 0x21, 0x9c, 0xc2, 0x92, 0x01, 0x90, 0x74, 0x73, 0x21, 0x51,
  0xc1, 0x35, 0x21, 0x53, 0xc1, 0x52, 0x21, 0x55, 0xc1, 0x6b, 0x22, 0x57, 0x53, 0xc1, 0x93, 0x21,
  0x70, 0xc1, 0x30, 0x21, 0x9c, 0xc1, 0x92, 0xff]

def fzkSu : Bytes := [
  0x01, 0x5b, 0xc3, 0x14, 0x21, 0x98, 0xc3, 0x52, 0x21, 0x99, 0xc3, 0x68, 0x03, 0x86, 0x58, 0x96,
  0xc4, 0x98, 0x21, 0x5a, 0xc4, 0x63, 0x21, 0x5c, 0xc4, 0x3e, 0x21, 0x64, 0xc4, 0x4d, 0x01, 0x96,
  0x26, 0xb6, 0x01, 0x98, 0xc5, 0x52, 0x01, 0x99, 0xc6, 0x68, 0xff]

def fzkZu : Bytes := [
  0x00, 0x84, 0x4e, 0x01, 0x71, 0x27, 0xb7, 0x02, 0x78, 0x51, 0x84, 0x10, 0x41, 0x98, 0x84, 0x52,
  0x02, 0xa0, 0x7d, 0x85, 0x89, 0xff]

def fzkSe : Bytes := [
  0x00, 0xc7, 0x8c, 0x00, 0x86, 0x17, 0x01, 0x95, 0xc8, 0x6e, 0x20, 0x86, 0x6e, 0x01, 0x98, 0x86,
  0x52, 0x01, 0x99, 0x86, 0x68, 0x01, 0x9a, 0x86, 0x6d, 0xff]

def fzkZe : Bytes := [
  0x00, 0x79, 0x9a, 0xff]

def fzkSo : Bytes := [
  0x01, 0x53, 0x87, 0x74, 0x21, 0x6d, 0x87, 0x4f, 0x41, 0x70, 0x88, 0x2b, 0x42, 0x9a, 0x53, 0x88,
  0x95, 0x21, 0x74, 0x87, 0x3f, 0x41, 0x64, 0x87, 0x2e, 0x61, 0x94, 0x88, 0x78, 0x81, 0x53, 0x88,
  0x96, 0x41, 0x66, 0x87, 0x55, 0x21, 0x77, 0x89, 0x64, 0x40, 0x88, 0x65, 0x41, 0x96, 0x87, 0x67,
  0x21, 0x78, 0x88, 0x40, 0xff]

def fzkZo : Bytes := [
  0x00, 0x28, 0x9a, 0xff]

def fzkTa : Bytes := [
  0x00, 0x8a, 0x56, 0x01, 0x51, 0x8b, 0x57, 0x02, 0x58, 0x70, 0x8b, 0x2b, 0x22, 0x9a, 0x53, 0x8b,
  0x94, 0x02, 0x59, 0x70, 0x8c, 0x30, 0x21, 0x96, 0x8c, 0x99, 0x21, 0x97, 0x8c, 0x41, 0x21, 0x98,
  0x8c, 0x52, 0x21, 0x99, 0x8c, 0x69, 0x22, 0x9a, 0x53, 0x8c, 0x94, 0x01, 0x5c, 0x8b, 0x42, 0x02,
  0x5e, 0x99, 0x8b, 0x69, 0x02, 0x8b, 0x51, 0xc9, 0x35, 0x21, 0x53, 0xc9, 0x52, 0x21, 0x55, 0xc9,
  0x6a, 0x21, 0x70, 0xc9, 0x30, 0x21, 0x9c, 0xc9, 0x92, 0x01, 0x8e, 0x29, 0xb8, 0x01, 0x96, 0x8a,
  0x67, 0x01, 0x97, 0x8a, 0xb9, 0x01, 0x98, 0x8d, 0x89, 0x02, 0x9a, 0x53, 0x8a, 0x94, 0xff]

def fzkDa : Bytes := [
  0x00, 0x8e, 0x56, 0x00, 0x8f, 0x4a, 0x01, 0x5e, 0x2a, 0x0f, 0x01, 0x70, 0x90, 0x2b, 0x01, 0x7b,
  0x2b, 0xba, 0x01, 0x96, 0x8e, 0x67, 0x21, 0x5e, 0x2c, 0xbb, 0x01, 0x97, 0x8e, 0xb9, 0x02, 0x9a,
  0x53, 0x91, 0x95, 0xff]

def fzkTi : Bytes := [
  0x02, 0x8b, 0x51, 0xcb, 0x35, 0x21, 0x53, 0xcb, 0x52, 0x21, 0x55, 0xcb, 0x6b, 0x22, 0x57, 0x53,
  0xcb, 0x93, 0x21, 0x70, 0xcb, 0x30, 0x21, 0x9c, 0xcb, 0x92, 0x01, 0x90, 0x75, 0x89, 0x21, 0x51,
  0xca, 0x35, 0x21, 0x53, 0xca, 0x52, 0x21, 0x55, 0xca, 0x6b, 0x22, 0x57, 0x53, 0xca, 0x93, 0x21,
  0x70, 0xca, 0x30, 0x21, 0x9c, 0xca, 0x92, 0xff]

def fzkDi : Bytes := [
  0x01, 0x90, 0x74, 0x73, 0xff]

def fzkTu : Bytes := [
  0x02, 0x51, 0x73, 0x2d, 0xbc, 0x01, 0x5a, 0x2e, 0xbd, 0x01, 0x71, 0x2f, 0xbe, 0x02, 0x8f, 0x97,
  0x30, 0xbf, 0xff]

def fzkTe : Bytes := [
  0x00, 0x31, 0xc0, 0x00, 0x32, 0xc1, 0x01, 0x98, 0x33, 0xc2, 0xff]

def fzkDe : Bytes := [
  0x00, 0x92, 0x01, 0x00, 0x8e, 0xc1, 0x03, 0x4f, 0x9a, 0x53, 0x34, 0x93, 0x01, 0x5a, 0xcc, 0x15,
  0x21, 0x98, 0xcc, 0x52, 0x21, 0x99, 0xcc, 0x69, 0x01, 0x64, 0x93, 0x2e, 0x21, 0x94, 0x94, 0x78,
  0x41, 0x53, 0x94, 0x96, 0x01, 0x66, 0x95, 0x58, 0x01, 0x7c, 0x7c, 0x81, 0x01, 0x98, 0x35, 0xc2,
  0xff]

def fzkTo : Bytes := [
  0x00, 0x36, 0x05, 0x00, 0x37, 0xc3, 0x01, 0x51, 0x32, 0x31, 0x21, 0x53, 0x39, 0xc5, 0x02, 0x57,
  0x97, 0x3a, 0xc6, 0x01, 0x58, 0x32, 0x92, 0x01, 0x5a, 0x3b, 0xc7, 0x20, 0x32, 0x35, 0x01, 0x5c,
  0x32, 0x52, 0x01, 0x5e, 0x32, 0x6b, 0x01, 0x60, 0x3c, 0xc8, 0x21, 0x53, 0x32, 0x93, 0x21, 0x9a,
  0x3c, 0xc8, 0x02, 0x70, 0x73, 0x38, 0xc4, 0x01, 0x73, 0x3d, 0xc9, 0x03, 0x7c, 0x51, 0x55, 0x3e,
  0xca, 0x01, 0x8f, 0x3f, 0xcb, 0xff]

def fzkDo : Bytes := [
  0x00, 0x40, 0xcc, 0x01, 0x51, 0x8e, 0x31, 0x02, 0x57, 0x97, 0x41, 0xcd, 0x01, 0x58, 0x8e, 0x92,
  0x01, 0x5a, 0x8e, 0x35, 0x01, 0x5c, 0x8e, 0x52, 0x01, 0x5e, 0x8e, 0x6b, 0x02, 0x60, 0x53, 0x8e,
  0x93, 0x21, 0x9a, 0x42, 0xce, 0x41, 0x58, 0x43, 0xcf, 0x01, 0x8f, 0x44, 0xd0, 0xff]

def fzkNa : Bytes := [
  0x00, 0x45, 0x9a, 0x00, 0x96, 0x66, 0x01, 0x4e, 0x46, 0x9a, 0x01, 0x4f, 0x46, 0x9a, 0x01, 0x51,
  0x98, 0x59, 0x21, 0x74, 0x98, 0x44, 0x02, 0x58, 0x70, 0x98, 0x2b, 0x22, 0x9a, 0x53, 0x98, 0x94,
  0x02, 0x59, 0x96, 0x47, 0xd1, 0x40, 0x76, 0x82, 0x02, 0x5a, 0x90, 0x98, 0x89, 0x01, 0x5c, 0x98,
  0x45, 0x02, 0x5e, 0x99, 0x98, 0x69, 0x02, 0x62, 0x51, 0xce, 0x46, 0x21, 0x96, 0xcf, 0x8e, 0x21,
  0x97, 0xcf, 0x37, 0x21, 0x98, 0xcf, 0x52, 0x21, 0x99, 0xcf, 0x69, 0x41, 0x98, 0xcf, 0x52, 0x01,
  0x6b, 0x48, 0xd2, 0x01, 0x70, 0xcd, 0x2c, 0x01, 0x76, 0x49, 0xd3, 0x01, 0x95, 0x45, 0x9a, 0x01,
  0x96, 0x97, 0x67, 0x20, 0xcd, 0x92, 0x01, 0x97, 0x4a, 0xd4, 0x20, 0xcd, 0x35, 0x01, 0x98, 0xcd,
  0x52, 0x01, 0x99, 0xcd, 0x6b, 0x02, 0x9a, 0x53, 0xcd, 0x93, 0x02, 0xa0, 0x58, 0x4b, 0xd5, 0x21,
  0x6b, 0x4c, 0xd6, 0x21, 0x73, 0x4d, 0xd7, 0xff]

def fzkNi : Bytes := [
  0x00, 0x4e, 0x06, 0x00, 0x4f, 0xd8, 0x00, 0x50, 0xd9, 0x02, 0x5c, 0x51, 0xd0, 0x53, 0x22, 0x58,
  0x70, 0xd0, 0x2b, 0x42, 0x9a, 0x53, 0xd0, 0x94, 0x21, 0x5c, 0xd0, 0x42, 0x22, 0x5e, 0x99, 0xd0,
  0x69, 0x21, 0x62, 0xd0, 0x79, 0x01, 0x73, 0x51, 0xda, 0x02, 0x74, 0x8f, 0x4e, 0x0a, 0x01, 0x8f,
  0x52, 0xdb, 0xff]

def fzkNu : Bytes := [
  0x00, 0x99, 0x5a, 0xff]

def fzkNe : Bytes := [
  0x00, 0x53, 0x9a, 0x00, 0x9a, 0x68, 0x01, 0x55, 0x54, 0x9a, 0xff]

def fzkNo : Bytes := [
  0x00, 0x55, 0x07, 0x00, 0x56, 0xdc, 0x01, 0x74, 0x57, 0xdd, 0x01, 0x78, 0x58, 0xde, 0x01, 0x8c,
  0x59, 0xdf, 0x23, 0x77, 0x96, 0x67, 0x5a, 0xe0, 0xff]

def fzkHa : Bytes := [
  0x00, 0x5b, 0x08, 0x01, 0x64, 0x5b, 0x7d, 0x01, 0x67, 0x5c, 0xe1, 0xff]

def fzkBa : Bytes := [
  0x00, 0x5d, 0xe2, 0x02, 0x58, 0x64, 0x5e, 0xe3, 0x21, 0x97, 0x5e, 0xe3, 0x03, 0x70, 0x58, 0x64,
  0x5e, 0xe3, 0x41, 0x97, 0x5e, 0xe3, 0xff]

def fzkHu : Bytes := [
  0x02, 0x53, 0x6d, 0x9c, 0x4f, 0x41, 0x70, 0x9c, 0x2b, 0x42, 0x9a, 0x53, 0x9c, 0x95, 0x21, 0x74,
  0x9c, 0x3f, 0x41, 0x64, 0x9c, 0x2e, 0x61, 0x94, 0x9c, 0x78, 0x81, 0x53, 0x9c, 0x96, 0x41, 0x66,
  0x9c, 0x55, 0x21, 0x77, 0x9c, 0x65, 0x41, 0x96, 0x9c, 0x67, 0x21, 0x78, 0x9c, 0x47, 0xff]

def fzkHe : Bytes := [
  0x00, 0x5f, 0x09, 0xff]

def fzkBe : Bytes := [
  0x02, 0x58, 0x96, 0x9d, 0x98, 0x01, 0x5a, 0x9d, 0x63, 0x01, 0x5c, 0x9d, 0x3e, 0x01, 0x64, 0x9d,
  0x4d, 0xff]

def fzkHo : Bytes := [
  0x01, 0x53, 0x60, 0xe4, 0x01, 0x58, 0x61, 0xe5, 0x01, 0x76, 0x62, 0xe6, 0xff]

def fzkMa : Bytes := [
  0x01, 0x51, 0x9e, 0x50, 0x01, 0x64, 0x9f, 0x2e, 0x20, 0x9f, 0x6e, 0x21, 0x94, 0x9f, 0x78, 0x41,
  0x53, 0x9f, 0x96, 0x01, 0x66, 0x9f, 0x5b, 0x21, 0x99, 0xa0, 0x68, 0x01, 0x68, 0xa1, 0x6d, 0x21,
  0x79, 0x9f, 0x5a, 0x21, 0xa0, 0x9f, 0x5c, 0x01, 0x74, 0x63, 0xe7, 0x01, 0x8b, 0x64, 0xe8, 0xff]

def fzkMi : Bytes := [
  0x00, 0xa9, 0x16, 0x02, 0x6c, 0x51, 0xa2, 0x75, 0x41, 0x6d, 0xa2, 0x51, 0x61, 0x70, 0xa2, 0x2b,
  0x62, 0x9a, 0x53, 0xa2, 0x95, 0x41, 0x74, 0xa2, 0x3f, 0x61, 0x64, 0xa2, 0x2e, 0x81, 0x94, 0xa2,
  0x78, 0xa1, 0x53, 0xa2, 0x96, 0x61, 0x66, 0xa2, 0x55, 0x41, 0x77, 0xa2, 0x65, 0x61, 0x96, 0xa2,
  0x67, 0x41, 0x78, 0xa2, 0x47, 0x01, 0x95, 0xa9, 0x6e, 0x01, 0x98, 0xa9, 0x52, 0x01, 0x99, 0xa9,
  0x68, 0x01, 0x9a, 0xa9, 0x6d, 0xff]

def fzkMo : Bytes := [
  0x00, 0x65, 0x0a, 0x00, 0x66, 0xe9, 0x02, 0x70, 0x73, 0x67, 0xea, 0x01, 0x7b, 0x68, 0xeb, 0x02,
  0x96, 0x51, 0xa9, 0x35, 0x21, 0x53, 0xa9, 0x52, 0x21, 0x55, 0xa9, 0x6b, 0x22, 0x57, 0x53, 0xa9,
  0x93, 0x21, 0x70, 0xa9, 0x2c, 0x21, 0x9c, 0xa9, 0x92, 0x01, 0xa0, 0x72, 0x9a, 0x21, 0x58, 0x72,
  0x9a, 0xff]

def fzkYa : Bytes := [
  0x00, 0x69, 0x0b, 0x00, 0x6a, 0xec, 0x02, 0x66, 0x51, 0xd1, 0x53, 0x22, 0x58, 0x70, 0xd1, 0x2b,
  0x42, 0x9a, 0x53, 0xd1, 0x94, 0x21, 0x5c, 0xd1, 0x42, 0x22, 0x5e, 0x99, 0xd1, 0x69, 0x21, 0x62,
  0xd1, 0x79, 0x01, 0x70, 0xa9, 0x2c, 0x01, 0x96, 0x6b, 0xed, 0x20, 0xa9, 0x92, 0x01, 0x97, 0xa9,
  0x35, 0x01, 0x98, 0xa9, 0x52, 0x01, 0x99, 0xa9, 0x68, 0x02, 0x9a, 0x53, 0xa9, 0x93, 0xff]

def fzkYu : Bytes := [
  0x01, 0x55, 0x6c, 0xee, 0xff]

def fzkYo : Bytes := [
  0x00, 0x6d, 0x9a, 0x01, 0x51, 0xd2, 0x53, 0x01, 0x53, 0xa3, 0x7c, 0x20, 0xa4, 0x77, 0x21, 0x6d,
  0xa4, 0x4f, 0x41, 0x70, 0xa4, 0x2b, 0x42, 0x9a, 0x53, 0xa4, 0x95, 0x21, 0x74, 0xa4, 0x3f, 0x41,
  0x64, 0xa4, 0x2e, 0x61, 0x94, 0xa4, 0x78, 0x81, 0x53, 0xa4, 0x96, 0x41, 0x66, 0xa4, 0x55, 0x21,
  0x77, 0xa4, 0x65, 0x41, 0x96, 0xa4, 0x67, 0x21, 0x78, 0xa4, 0x47, 0x02, 0x58, 0x70, 0xd2, 0x2b,
  0x22, 0x9a, 0x53, 0xd2, 0x94, 0x01, 0x5c, 0xd2, 0x42, 0x02, 0x5e, 0x99, 0xd2, 0x69, 0x01, 0x62,
  0xd2, 0x79, 0x02, 0x70, 0x73, 0xd3, 0x76, 0x02, 0x77, 0x4e, 0x6d, 0x9a, 0x21, 0x4f, 0x6d, 0x9a,
  0x01, 0x7a, 0x6d, 0x9a, 0x01, 0x96, 0xd3, 0x8e, 0x01, 0x97, 0x6e, 0x0c, 0x20, 0xd3, 0x48, 0x01,
  0x98, 0xd3, 0x52, 0x01, 0x99, 0xd3, 0x69, 0xff]

def fzkRa : Bytes := [
  0x02, 0x64, 0x51, 0xa5, 0x5d, 0x22, 0x58, 0x70, 0xa5, 0x2b, 0x21, 0x5a, 0xa5, 0x62, 0x21, 0x5c,
  0xa5, 0x42, 0x22, 0x92, 0x53, 0xa5, 0x49, 0x01, 0x99, 0xa6, 0x18, 0x21, 0x95, 0xa6, 0x6e, 0x21,
  0x98, 0xa6, 0x52, 0x21, 0x99, 0xa6, 0x68, 0x21, 0x9a, 0xa6, 0x6d, 0xff]

def fzkRe : Bytes := [
  0x00, 0xa7, 0x18, 0x01, 0x95, 0xa7, 0x6e, 0x01, 0x98, 0xa7, 0x52, 0x01, 0x99, 0xa7, 0x68, 0x01,
  0x9a, 0xa7, 0x6d, 0xff]

def fzkWa : Bytes := [
  0x00, 0x6f, 0x9a, 0x01, 0x5e, 0x70, 0xef, 0x01, 0x7a, 0x71, 0x9a, 0x01, 0x95, 0x72, 0x9a, 0xff]

def fzkNn : Bytes := [
  0x00, 0x73, 0xf0, 0x00, 0x9b, 0x5c, 0xff]

def fzkadrTable : List (Option Bytes) := [
  none, some fzkA, none, some fzkI, none, some fzkU, none, some fzkE, none, some fzkO, some fzkKa,
  some fzkGa, some fzkKi, none, some fzkKu, some fzkGu, some fzkKe, none, some fzkKo, some fzkGo,
  some fzkSa, some fzkZa, some fzkSi, some fzkJi, some fzkSu, some fzkZu, some fzkSe, some fzkZe,
  some fzkSo, some fzkZo, some fzkTa, some fzkDa, some fzkTi, some fzkDi, some fzkXtu, some fzkTu,
  none, some fzkTe, some fzkDe, some fzkTo, some fzkDo, some fzkNa, some fzkNi, some fzkNu,
  some fzkNe, some fzkNo, some fzkHa, some fzkBa, none, none, none, none, some fzkHu, none, none,
  some fzkHe, some fzkBe, none, some fzkHo, none, none, some fzkMa, some fzkMi, none, none,
  some fzkMo, none, some fzkYa, none, some fzkYu, none, some fzkYo, some fzkRa, none, none,
  some fzkRe, none, none, some fzkWa, none, none, some fzkWo, some fzkNn]

def fzkadr (i : ℕ) : Option Bytes := (fzkadrTable[i]?).join

def connadrTable : List UInt8 := [
  0x00, 0xf7, 0xf7, 0xf7, 0xf7, 0x00, 0x00, 0x00, 0x00, 0x00, 0x00, 0xf7, 0x7e, 0x7e, 0x84, 0x00,
  0x00, 0x7f, 0x00, 0x00, 0x00, 0xf7, 0xf7, 0xf7, 0xf7, 0xf7, 0xfe, 0xf2, 0xf3, 0xfd, 0xf1, 0xf4,
  0xf4, 0xf4, 0xf4, 0xf4, 0xf7, 0xf7, 0xf7, 0xf7, 0x00, 0x00, 0x00, 0x00, 0xf7, 0xf5, 0x00, 0x00,
  0x00, 0x00, 0x00, 0x00, 0x00, 0x00, 0xfd, 0x00, 0x00, 0x00, 0x00, 0x00, 0x00, 0x00, 0x00, 0x00,
  0x00, 0x00, 0x00, 0x00, 0x00, 0x00, 0x00, 0x00, 0x00, 0x00, 0x00, 0x00, 0x00, 0x00, 0x00, 0x00,
  0x00, 0x00, 0x00, 0x00, 0x00, 0x00, 0x00, 0x00, 0x00, 0x00, 0x00, 0x00, 0x00, 0x00, 0x00, 0x00,
  0x00, 0x00, 0x00, 0x00, 0x00, 0x00, 0x00, 0x00, 0x00, 0x00, 0x00, 0x00, 0x00, 0x00, 0x00, 0x00,
  0x00, 0x00, 0x00, 0x00, 0x00, 0x00, 0x00, 0x00, 0x00, 0x00, 0x00, 0x00, 0x00, 0x00, 0x00, 0x00,
  0x00, 0x00, 0x00, 0x00, 0x00, 0x00, 0x00, 0x00, 0x00, 0x00, 0x00, 0x00, 0x00, 0x00, 0x00, 0x00,
  0x00, 0x00, 0x00, 0x00, 0x00, 0x00, 0x00, 0x00, 0x00, 0x00, 0x00, 0x00, 0x00, 0x00, 0x00, 0x00,
  0x00, 0x00, 0x00, 0x00, 0x00, 0x00, 0x00, 0x00, 0x00, 0x00, 0x00, 0x43, 0x8c, 0x8f, 0x52, 0x68,
  0x6d, 0x6e, 0x97, 0x3a, 0x52, 0x68, 0x6d, 0x3b, 0x3c, 0x2c, 0x7b, 0x7a, 0x53, 0xff, 0x00, 0x00,
  0x00, 0x00, 0x00, 0x00, 0x00, 0x00, 0x00, 0x00, 0xf7]

def connadr (hinsi : UInt8) : UInt8 := connadrTable.getD hinsi.toNat 0

def termtblTable : List UInt8 := [
  0x00, 0x88, 0x89, 0x87, 0x88, 0x87, 0x87, 0x88, 0x88, 0x88, 0x87, 0x87, 0x88, 0x87, 0x84, 0x88,
  0x01, 0x01, 0x83, 0x83, 0x83, 0x83, 0x83, 0x83, 0x83, 0x01, 0x8b, 0x8b, 0x8b, 0x8b, 0x8c, 0x8c,
  0x8c, 0x8c, 0x8c, 0x8c, 0x00, 0x00, 0x00, 0x8b, 0x88, 0x87, 0x8b, 0x01, 0x01, 0x01, 0x01, 0x01,
  0x01, 0x01, 0x83, 0x83, 0x83, 0x83, 0x83, 0x83, 0x83, 0x83, 0x83, 0x83, 0x83, 0x83, 0x83, 0x83,
  0x83, 0x83, 0x83, 0x01, 0x87, 0x83, 0x83, 0x83, 0x83, 0x83, 0x42, 0x82, 0x82, 0x82, 0x82, 0x82,
  0x82, 0x82, 0x98, 0x9a, 0x97, 0x82, 0x97, 0x96, 0x82, 0x97, 0x96, 0x96, 0x56, 0x96, 0x97, 0x96,
  0x96, 0x96, 0x96, 0x96, 0x01, 0x96, 0x01, 0x83, 0x01, 0x01, 0x82, 0x82, 0x82, 0x42, 0x42, 0x86,
  0x01, 0x81, 0x86, 0x84, 0x84, 0x86, 0x86, 0x84, 0x82, 0x84, 0x8d, 0x8d, 0x82, 0x01, 0x84, 0x87,
  0x01, 0x44, 0x88, 0x89, 0x86, 0x88, 0x83, 0x8a, 0x00, 0x83, 0x00, 0x00, 0x01, 0x01, 0x01, 0x83,
  0x8b, 0x83, 0x01, 0x82, 0x82, 0x82, 0x82, 0x01, 0x01, 0x01, 0x42, 0x87, 0x81, 0x83, 0x83, 0x87,
  0x87, 0x84, 0x84, 0x84, 0x84, 0x84, 0x83, 0x82, 0x87, 0x87, 0x87, 0x88, 0x86, 0x84, 0x87, 0x87,
  0x87, 0x84, 0x87, 0x87, 0x84, 0x86, 0x87, 0x88, 0x84, 0x86, 0x87, 0x84, 0x84, 0x84, 0x87, 0x84,
  0x87, 0x88, 0x87, 0x86, 0x84, 0x87, 0x84, 0x84, 0x84, 0x87, 0x87, 0x87, 0x87, 0x84, 0x84, 0x84,
  0x87, 0x87, 0x87, 0x87, 0x87, 0x87, 0x87, 0x87, 0x86, 0x86, 0x87, 0x87, 0x42, 0x87, 0x87, 0x87,
  0x87, 0x84, 0x87, 0x87, 0x84, 0x84, 0x87, 0x88, 0x84, 0x88, 0x84, 0x84, 0x87, 0x87, 0x84, 0x84,
  0x07, 0x84, 0x8e, 0x86, 0x86, 0x8d, 0x89, 0x86, 0x86, 0x86, 0x86, 0x06, 0x86, 0x8a, 0x8a, 0x81]

def termtbl (right : UInt8) : UInt8 := termtblTable.getD right.toNat 0

/-- The grammar with these tables. -/
def fzkGrammar (rigtadr : UInt8 → Bytes) (conjadr getstb : UInt8 → Option Bytes) : Grammar where
  termtbl
  connadr
  rigtadr
  fzkadr
  conjadr
  getstb

end Sj3
